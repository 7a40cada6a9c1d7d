import Mathlib

/-!
# Scanning a log of self-delimiting records

A scanner looks at the front of a list of symbols and finds a record, a point where it stops, or a
reason to refuse the log.  Where every record is found again from its own encoding, scanning a log
gives back its records, and scanning a prefix comes down to what the scanner says about the record
that is cut.
-/

namespace Contextra.Library

open List

universe u v w x

variable {Symbol : Type u} {State : Type v} {Record : Type w} {Error : Type x}

/-- What a scanner finds at the front: nothing more to read, a reason to refuse the log, or
a record, with the state and the symbols behind it. -/
inductive Found (Symbol : Type u) (State : Type v) (Record : Type w) (Error : Type x) where
  | stop
  | refuse (error : Error)
  | record (record : Record) (state : State) (rest : List Symbol)

structure Scanner (Symbol : Type u) (State : Type v) (Record : Type w) (Error : Type x) where
  next : State → List Symbol → Found Symbol State Record Error
  shrinks : ∀ {state log record state' rest},
    next state log = .record record state' rest → rest.length < log.length

/-- The records of a scan, the state it ends in and the symbols it stops before. -/
structure Scan (Symbol : Type u) (State : Type v) (Record : Type w) where
  records : List Record
  state : State
  rest : List Symbol

def Scan.prepend (records : List Record) (scanned : Scan Symbol State Record) :
    Scan Symbol State Record :=
  { scanned with records := records ++ scanned.records }

namespace Scanner

variable (scanner : Scanner Symbol State Record Error)

def scanWithin : Nat → State → List Symbol → Except Error (Scan Symbol State Record)
  | 0, state, log => .ok ⟨[], state, log⟩
  | fuel + 1, state, log =>
    match scanner.next state log with
    | .stop => .ok ⟨[], state, log⟩
    | .refuse error => .error error
    | .record record state' rest => (scanWithin fuel state' rest).map (Scan.prepend [record])

/-- The whole scan; every record shortens the log, so the fuel is never used up. -/
def scan (state : State) (log : List Symbol) : Except Error (Scan Symbol State Record) :=
  scanner.scanWithin (log.length + 1) state log

theorem scanWithin_eq {fuel : Nat} {state : State} {log : List Symbol} (enough : log.length < fuel) :
    scanner.scanWithin fuel state log = scanner.scan state log := by
  unfold scan
  induction fuel using Nat.strong_induction_on generalizing state log with
  | _ fuel ih =>
    obtain ⟨fuel, rfl⟩ : ∃ less, fuel = less + 1 := ⟨fuel - 1, by omega⟩
    simp only [scanWithin]
    cases found : scanner.next state log with
    | stop => rfl
    | refuse error => rfl
    | record record state' rest =>
      have shorter := scanner.shrinks found
      simp only
      congr 1
      by_cases same : fuel = log.length
      · rw [same]
      · rw [ih fuel (by omega) (by omega),
          ← ih log.length (by omega) shorter]

variable {scanner}

theorem scan_stop {state : State} {log : List Symbol} (found : scanner.next state log = .stop) :
    scanner.scan state log = .ok ⟨[], state, log⟩ := by
  simp [scan, scanWithin, found]

theorem scan_refuse {state : State} {log : List Symbol} {error : Error}
    (found : scanner.next state log = .refuse error) : scanner.scan state log = .error error := by
  simp [scan, scanWithin, found]

theorem scan_record {state state' : State} {log rest : List Symbol} {record : Record}
    (found : scanner.next state log = .record record state' rest) :
    scanner.scan state log = (scanner.scan state' rest).map (Scan.prepend [record]) := by
  rw [scan, scanWithin, found]
  simp only
  rw [scanner.scanWithin_eq (scanner.shrinks found)]

theorem exists_scan_stop (scanner : Scanner Symbol State Record Error) {state : State}
    {log : List Symbol} (found : scanner.next state log = .stop) {P : List Record → Prop} :
    (∃ scanned, scanner.scan state log = .ok scanned ∧ P scanned.records) ↔ P [] := by
  rw [scan_stop found]
  constructor
  · rintro ⟨scanned, finished, holds⟩
    cases finished
    exact holds
  · exact fun holds => ⟨_, rfl, holds⟩

theorem not_exists_scan_refuse (scanner : Scanner Symbol State Record Error) {state : State}
    {log : List Symbol} {error : Error} (found : scanner.next state log = .refuse error) {P : List Record → Prop} :
    ¬ ∃ scanned, scanner.scan state log = .ok scanned ∧ P scanned.records := by
  rw [scan_refuse found]
  rintro ⟨scanned, impossible, _⟩
  cases impossible

theorem exists_scan_record (scanner : Scanner Symbol State Record Error) {state state' : State}
    {log rest : List Symbol} {record : Record}
    (found : scanner.next state log = .record record state' rest) {P : List Record → Prop} :
    (∃ scanned, scanner.scan state log = .ok scanned ∧ P scanned.records) ↔
      ∃ scanned, scanner.scan state' rest = .ok scanned ∧ P (record :: scanned.records) := by
  rw [scan_record found]
  constructor
  · rintro ⟨scanned, finished, holds⟩
    cases later : scanner.scan state' rest with
    | error error =>
      rw [later] at finished
      cases finished
    | ok behind =>
      rw [later] at finished
      cases finished
      exact ⟨behind, rfl, holds⟩
  · rintro ⟨behind, later, holds⟩
    rw [later]
    exact ⟨_, rfl, holds⟩

/-- What a successful scan did: a record for each symbol run it passed, and a stop. -/
inductive Scanned (scanner : Scanner Symbol State Record Error) :
    State → List Symbol → Scan Symbol State Record → Prop
  | stop {state log} : scanner.next state log = .stop → Scanned scanner state log ⟨[], state, log⟩
  | record {state state' log rest record scanned} :
      scanner.next state log = .record record state' rest → Scanned scanner state' rest scanned →
      Scanned scanner state log (scanned.prepend [record])

theorem scan_eq_ok {state : State} {log : List Symbol} {scanned : Scan Symbol State Record} :
    scanner.scan state log = .ok scanned ↔ Scanned scanner state log scanned := by
  constructor
  · intro finished
    induction size : log.length using Nat.strong_induction_on generalizing state log scanned with
    | _ size ih =>
      cases found : scanner.next state log with
      | stop =>
        rw [scan_stop found, Except.ok.injEq] at finished
        exact finished ▸ .stop found
      | refuse error => rw [scan_refuse found] at finished; contradiction
      | record record state' rest =>
        rw [scan_record found] at finished
        cases later : scanner.scan state' rest with
        | error error => rw [later] at finished; contradiction
        | ok scanned' =>
          rw [later] at finished
          rw [← Except.ok.inj finished]
          exact .record found
            (ih rest.length (size ▸ scanner.shrinks found) later rfl)
  · intro trace
    induction trace with
    | stop found => exact scan_stop found
    | record found _ ih =>
      rw [scan_record found, ih]
      rfl

section Encodings

variable {Item : Type*} {encode : Item → List Symbol}

/-- The records a scan finds in a run of items, each in the state that the ones before it
leave behind. -/
def recordsAlong (record : State → Item → Record) (advance : State → Item → State) :
    State → List Item → List Record
  | _, [] => []
  | state, item :: items =>
    record state item :: recordsAlong record advance (advance state item) items

/-- Where each item is found again from its encoding, the scan passes over a run of
encodings and goes on behind it. -/
theorem scan_items (record : State → Item → Record) (advance : State → Item → State)
    {items : List Item} {state : State} {tail : List Symbol}
    (found : ∀ item ∈ items, ∀ state rest,
      scanner.next state (encode item ++ rest) =
        .record (record state item) (advance state item) rest) :
    scanner.scan state (items.flatMap encode ++ tail) =
      (scanner.scan (items.foldl advance state) tail).map
        (Scan.prepend (recordsAlong record advance state items)) := by
  induction items generalizing state with
  | nil =>
    simp only [flatMap_nil, nil_append, foldl_nil, recordsAlong]
    cases scanner.scan state tail <;> rfl
  | cons item items ih =>
    have first := found item mem_cons_self state (items.flatMap encode ++ tail)
    rw [flatMap_cons, append_assoc, scan_record first,
      ih fun other mem => found other (mem_cons_of_mem _ mem)]
    rw [foldl_cons]
    cases scanner.scan (items.foldl advance (advance state item)) tail <;> rfl

end Encodings

section Records

variable {encode : Record → List Symbol}

theorem recordsAlong_self (advance : State → Record → State) (state : State)
    (records : List Record) :
    recordsAlong (fun _ record => record) advance state records = records := by
  induction records generalizing state with
  | nil => rfl
  | cons record records ih => rw [recordsAlong, ih]

theorem scan_encodings (advance : State → Record → State) {records : List Record} {state : State}
    {tail : List Symbol}
    (found : ∀ record ∈ records, ∀ state rest,
      scanner.next state (encode record ++ rest) = .record record (advance state record) rest) :
    scanner.scan state (records.flatMap encode ++ tail) =
      (scanner.scan (records.foldl advance state) tail).map (Scan.prepend records) := by
  rw [scan_items (fun _ record => record) advance found, recordsAlong_self]

/-- Where the scanner finds records only at their encodings, a scanned log is the encodings
of its records and the rest it stopped before. -/
theorem Scanned.log_eq {state : State} {log : List Symbol} {scanned : Scan Symbol State Record}
    (canonical : ∀ state log record state' rest,
      scanner.next state log = .record record state' rest → log = encode record ++ rest)
    (trace : Scanned scanner state log scanned) :
    log = scanned.records.flatMap encode ++ scanned.rest := by
  induction trace with
  | stop found => rfl
  | record found _ ih =>
    rw [canonical _ _ _ _ _ found, ih]
    simp [Scan.prepend]

theorem Scanned.stops {state : State} {log : List Symbol} {scanned : Scan Symbol State Record}
    (trace : Scanned scanner state log scanned) :
    scanner.next scanned.state scanned.rest = .stop := by
  induction trace with
  | stop found => exact found
  | record _ _ ih => exact ih

theorem Scanned.stop_of_records_nil {state : State} {log : List Symbol}
    {scanned : Scan Symbol State Record} (trace : Scanned scanner state log scanned)
    (nothing : scanned.records = []) : scanner.next state log = .stop := by
  cases trace with
  | stop found => exact found
  | record found later => exact absurd nothing (cons_ne_nil _ _)

theorem Scanned.forall_records {state : State} {log : List Symbol}
    {scanned : Scan Symbol State Record} (P : Record → Prop)
    (each : ∀ state log record state' rest,
      scanner.next state log = .record record state' rest → P record)
    (trace : Scanned scanner state log scanned) : ∀ record ∈ scanned.records, P record := by
  induction trace with
  | stop found => simp
  | record found _ ih =>
    intro record mem
    rcases mem_cons.mp mem with rfl | later
    · exact each _ _ _ _ _ found
    · exact ih record later

end Records

end Scanner

section Prefixes

variable {encode : Record → List Symbol}

/-- The records whose encodings lie completely within the first `count` symbols. -/
def wholeRecords (encode : Record → List Symbol) : Nat → List Record → List Record
  | _, [] => []
  | count, record :: records =>
    if (encode record).length ≤ count then
      record :: wholeRecords encode (count - (encode record).length) records
    else []

/-- The record that the first `count` symbols cut, and how many of its symbols they keep. -/
def cutRecord (encode : Record → List Symbol) : Nat → List Record → Option (Record × Nat)
  | _, [] => none
  | count, record :: records =>
    if (encode record).length ≤ count then
      cutRecord encode (count - (encode record).length) records
    else some (record, count)

/-- The symbols of the cut record within the first `count`. -/
def tornSymbols (encode : Record → List Symbol) (count : Nat) (records : List Record) :
    List Symbol :=
  match cutRecord encode count records with
  | none => []
  | some (record, kept) => (encode record).take kept

theorem take_encodings (count : Nat) (records : List Record) :
    (records.flatMap encode).take count =
      (wholeRecords encode count records).flatMap encode ++ tornSymbols encode count records := by
  induction records generalizing count with
  | nil => simp [wholeRecords, tornSymbols, cutRecord]
  | cons record records ih =>
    rw [flatMap_cons, take_append]
    by_cases inside : (encode record).length ≤ count
    · rw [take_of_length_le inside, ih]
      simp [wholeRecords, tornSymbols, cutRecord, inside]
    · have nothing : count - (encode record).length = 0 := by omega
      simp [wholeRecords, tornSymbols, cutRecord, inside, nothing]

theorem wholeRecords_isPrefix (count : Nat) (records : List Record) :
    wholeRecords encode count records <+: records := by
  induction records generalizing count with
  | nil => exact nil_prefix
  | cons record records ih =>
    unfold wholeRecords
    split
    · exact (prefix_cons_inj record).mpr (ih _)
    · exact nil_prefix

theorem cutRecord_eq_some {count kept : Nat} {records : List Record} {record : Record}
    (cut : cutRecord encode count records = some (record, kept)) :
    (∃ later, records = wholeRecords encode count records ++ record :: later) ∧
      kept < (encode record).length := by
  induction records generalizing count with
  | nil => contradiction
  | cons first records ih =>
    unfold cutRecord at cut
    unfold wholeRecords
    split at cut
    · rename_i inside
      obtain ⟨⟨later, same⟩, shorter⟩ := ih cut
      rw [if_pos inside]
      exact ⟨⟨later, by rw [cons_append, ← same]⟩, shorter⟩
    · rename_i outside
      obtain ⟨rfl, rfl⟩ := Prod.mk.inj (Option.some.inj cut)
      rw [if_neg outside]
      exact ⟨⟨records, rfl⟩, Nat.lt_of_not_le outside⟩

end Prefixes

end Contextra.Library
