import Wpm.Operation.Record
import Wpm.Operation.RecordParse
import Wpm.JsonEncoding

/-!
The list of the recovery records: `wpm_recovery_records` without an operation id.

One loop examines the entries, counts them, and fills an array in place. `Reached` says what the loop
has made of the entries seen so far; a slot that is not taken is all zero again.
-/

namespace Wpm.Operation

open Wpm.Lib.CString Wpm.JsonInput Wpm.JsonOutput
open Wpm.Archive (pathSize)

/-- `RECORD_BYTES`. -/
def recordBytes : ℕ := 65536

/-- `RECORD_READ_BUDGET`. -/
def recordReadBudget : ℕ := 64 * 1024 * 1024

/-! ### The directory -/

/-- What the system says of an open file. -/
structure FileInformation where
  links : ℕ
  directory : Bool
  reparse : Bool
  size : ℕ

/-- A file that was opened: its kind, what is known of it, and what is read from its start. -/
structure OpenFile where
  disk : Bool
  information : Option FileInformation
  content : Option Bytes

/-- An entry of the recovery directory: the length of its name in bytes of UTF-16, the name in the
code page of the system (empty where there is none), and the file that is opened by that name. -/
structure JsonEntry where
  length : ℕ
  name : Bytes
  file : Option OpenFile

/-- The entries that match `*.json`, and the turns in which the enumeration fails. -/
structure JsonDirectory where
  entries : List JsonEntry
  fails : ℕ → Bool

/-- What `wpm_path_guard_next_json` can return of an entry. -/
def JsonEntry.deliverable (e : JsonEntry) : Bool :=
  e.length ≠ 0 && e.length ≤ 512 && e.length % 2 = 0 && e.name ≠ [] && e.name.length ≤ 255

/-- What `wpm_path_guard_open` returns. -/
inductive GuardOpen
  | absent
  | failed
  | opened (canonical : Bytes) (directory : JsonDirectory)

/-- What a query meets: the data root, and the recovery directory in it. -/
structure RecoveryEnv where
  root : Option Bytes
  recovery : GuardOpen

/-! ### One record -/

/-- What `record_read` returns. -/
inductive Admission
  | invalid
  | admitted
  | overBudget

/-- The size of an ordinary file that may be a record. -/
def recordSize (file : OpenFile) : Option ℕ := do
  let information ← file.information
  guard (file.disk ∧ information.links = 1 ∧ information.directory = false ∧
    information.reparse = false ∧ information.size ≠ 0 ∧ information.size ≤ recordBytes)
  some information.size

/-- The text of a record. -/
def recordText (file : OpenFile) (size : ℕ) : Option Bytes := do
  let content ← file.content
  let text := content.take size
  guard (text.length = size ∧ 0 ∉ text)
  some text

/-- Whether a filling succeeds, and the record after it. -/
def Filling.outcome (f : Filling Unit) (record : RecoveryIdentity) : Bool × RecoveryIdentity :=
  let r := f.run.run record
  (r.1.isOk, r.2)

/-- `record_read`, with the record and the budget after it. -/
def recordRead (file : Option OpenFile) (id : Bytes) (record : RecoveryIdentity) (budget : ℕ) :
    Admission × RecoveryIdentity × ℕ :=
  match file.bind fun file => (recordSize file).map fun size => (file, size) with
  | none => (.invalid, record, budget)
  | some (file, size) =>
    if budget < size then (.overBudget, record, budget)
    else match recordText file size with
      | none => (.invalid, record, budget - size)
      | some text =>
        let r := (recordParse text id).outcome record
        (if r.1 then .admitted else .invalid, r.2, budget - size)

/-- `record_retained_path`. -/
def recordRetainedPath (directory : Bytes) : Filling Unit := do
  let record ← get
  let version := if cstr record.operation = str "remove" then record.oldVersion else record.newVersion
  if record.retainedKnown = false then return
  if cur version = 0 then
    modify fun r => { r with retainedStatus := str "identity-incomplete", inventoryKnown := false }
  else
    let relative := cstr record.id ++ str "/input.zip"
    Filling.require (relative.length < 256 && relative = cstr record.retainedRelative)
    let path := directory ++ str "\\" ++ cstr record.id ++ str "\\input.zip"
    modify fun r =>
      { r with retainedPath := writeAt r.retainedPath 0 (path.take (pathSize - 1) ++ [0]) }
    Filling.require (path.length < pathSize)

/-- Whether the filters let a record through. -/
def RecoveryIdentity.matchesFilters (name arch : Option Bytes) (r : RecoveryIdentity) : Bool :=
  (name.all fun name => stricmp name (cstr r.name) = .eq) &&
    arch.all fun arch => stricmp arch (cstr r.arch) = .eq

/-! ### The loop -/

/-- The state of the loop. -/
structure RecoveryQuery where
  records : List RecoveryIdentity
  count : ℕ
  examined : ℕ
  invalid : ℕ
  filtered : ℕ
  limited : Bool
  budget : ℕ

/-- The state before the loop, with an array of `limit` records. -/
def RecoveryQuery.start (limit : ℕ) : RecoveryQuery where
  records := List.replicate limit .zero
  count := 0
  examined := 0
  invalid := 0
  filtered := 0
  limited := false
  budget := recordReadBudget

namespace RecoveryQuery

/-- `invalid++`, and the slot is cleared. -/
def rejected (q : RecoveryQuery) : RecoveryQuery :=
  { q with invalid := q.invalid + 1, records := q.records.set q.count .zero }

/-- `filtered++`, and the slot is cleared. -/
def leftOut (q : RecoveryQuery) : RecoveryQuery :=
  { q with filtered := q.filtered + 1, records := q.records.set q.count .zero }

/-- One turn of the loop, and whether it is left. There is no result where the turn uses a slot
outside of the array. -/
def turn (limit : ℕ) (directory : Bytes) (shown : RecoveryIdentity → Bool) (q : RecoveryQuery)
    (e : JsonEntry) : Option (RecoveryQuery × Bool) :=
  if q.examined = limit then some ({ q with limited := true }, true)
  else
    let q := { q with examined := q.examined + 1 }
    if e.name.length ≠ 37 ∨ e.name.drop 32 ≠ str ".json" then
      some ({ q with invalid := q.invalid + 1 }, false)
    else do
      let slot ← q.records[q.count]?
      let candidate := e.name.take 32
      let (result, record, budget) :=
        if recoveryIdValid candidate then recordRead e.file candidate slot q.budget
        else (.invalid, slot, q.budget)
      let q := { q with records := q.records.set q.count record, budget }
      match result with
      | .overBudget => some ({ q with limited := true }, true)
      | .invalid => some (q.rejected, false)
      | .admitted =>
        let r := (recordRetainedPath directory).outcome record
        let q := { q with records := q.records.set q.count r.2 }
        if r.1 = false then some (q.rejected, false)
        else if shown r.2 then some ({ q with count := q.count + 1 }, false)
        else some (q.leftOut, false)

/-- The loop from the turn `k` on, and whether the enumeration came to its end. -/
def runFrom (limit : ℕ) (directory : Bytes) (shown : RecoveryIdentity → Bool) (fails : ℕ → Bool) :
    ℕ → List JsonEntry → RecoveryQuery → Option (RecoveryQuery × Bool)
  | k, [], q => some (q, !fails k)
  | k, e :: entries, q =>
    if fails k || !e.deliverable then some (q, false)
    else do
      let (q, left) ← q.turn limit directory shown e
      if left then some (q, false) else runFrom limit directory shown fails (k + 1) entries q

/-- The state after an entry with this record. -/
def next (q : RecoveryQuery) (shown : RecoveryIdentity → Bool) (record : Option RecoveryIdentity)
    (budget : ℕ) : RecoveryQuery :=
  match record with
  | none => { q with examined := q.examined + 1, invalid := q.invalid + 1, budget }
  | some r =>
    if shown r then
      { q with examined := q.examined + 1, count := q.count + 1, budget,
               records := q.records.set q.count r }
    else { q with examined := q.examined + 1, filtered := q.filtered + 1, budget }

lemma next_examined (q : RecoveryQuery) {shown : RecoveryIdentity → Bool}
    {record : Option RecoveryIdentity} {budget : ℕ} :
    (q.next shown record budget).examined = q.examined + 1 := by
  cases record with
  | none => rfl
  | some r =>
    by_cases hshown : shown r = true
    · simp [next, hshown]
    · simp [next, hshown]

end RecoveryQuery

/-! ### What the loop makes of the entries -/

/-- The name of an entry is that of a record. -/
def JsonEntry.named (e : JsonEntry) : Bool :=
  e.name.length = 37 && e.name.drop 32 = str ".json" && recoveryIdValid (e.name.take 32)

/-- **The record that an entry is admitted with.** -/
def JsonEntry.record (directory : Bytes) (e : JsonEntry) : Option RecoveryIdentity := do
  guard (e.named = true)
  let file ← e.file
  let size ← recordSize file
  let text ← recordText file size
  let parsed := (recordParse text (e.name.take 32)).outcome .zero
  guard (parsed.1 = true)
  let placed := (recordRetainedPath directory).outcome parsed.2
  guard (placed.1 = true)
  some placed.2

/-- The bytes that reading an entry takes from the budget. -/
def JsonEntry.spends (e : JsonEntry) : ℕ :=
  if e.named then (e.file.bind recordSize).getD 0 else 0

/-- What `record_read` makes of an entry, from an empty slot. -/
lemma recordRead_cases {e : JsonEntry} (hnamed : e.named = true) (directory : Bytes) (budget : ℕ) :
    (budget < e.spends ∧
      recordRead e.file (e.name.take 32) .zero budget = (.overBudget, .zero, budget)) ∨
    (e.spends ≤ budget ∧ ∃ r,
      (recordRead e.file (e.name.take 32) .zero budget = (.invalid, r, budget - e.spends) ∧
        e.record directory = none) ∨
      (recordRead e.file (e.name.take 32) .zero budget = (.admitted, r, budget - e.spends) ∧
        e.record directory =
          if ((recordRetainedPath directory).outcome r).1 = true then
            some ((recordRetainedPath directory).outcome r).2
          else none)) := by
  have hspends : e.spends = (e.file.bind recordSize).getD 0 := if_pos hnamed
  have hguard : (guard (e.named = true) : Option Unit) = some () := by simp [hnamed]
  unfold JsonEntry.record recordRead
  rw [hguard, hspends]
  cases hfile : e.file with
  | none => exact .inr ⟨Nat.zero_le _, .zero, .inl ⟨rfl, rfl⟩⟩
  | some file =>
    cases hsize : recordSize file with
    | none => exact .inr ⟨by simp [hsize], .zero, .inl ⟨by simp [hsize], by simp [hsize]⟩⟩
    | some size =>
      simp only [Option.bind_eq_bind, Option.bind_some, hsize, Option.map_some, Option.getD_some]
      by_cases hbudget : budget < size
      · exact .inl ⟨hbudget, if_pos hbudget⟩
      refine .inr ⟨Nat.not_lt.1 hbudget, ?_⟩
      rw [if_neg hbudget]
      cases htext : recordText file size with
      | none => exact ⟨.zero, .inl ⟨rfl, rfl⟩⟩
      | some text =>
        refine ⟨((recordParse text (e.name.take 32)).outcome .zero).2, ?_⟩
        cases hparsed : ((recordParse text (e.name.take 32)).outcome .zero).1 with
        | false => exact .inl ⟨by simp [hparsed], by simp [hparsed]⟩
        | true =>
          refine .inr ⟨by simp [hparsed], ?_⟩
          simp only [Option.bind_some, hparsed, guard, if_true]
          split_ifs <;> simp_all

section Loop

variable {limit : ℕ} {directory : Bytes} {shown : RecoveryIdentity → Bool} {fails : ℕ → Bool}
  {q : RecoveryQuery} {seen : List JsonEntry}

/-- The records of the entries that are to be rendered. -/
def shownRecords (directory : Bytes) (shown : RecoveryIdentity → Bool) (seen : List JsonEntry) :
    List RecoveryIdentity :=
  seen.filterMap fun e => (e.record directory).filter shown

variable (directory shown seen) in
lemma shownRecords_concat (e : JsonEntry) : shownRecords directory shown (seen ++ [e]) =
    shownRecords directory shown seen ++ ((e.record directory).filter shown).toList := by
  rw [shownRecords, List.filterMap_append]
  cases h : (e.record directory).filter shown <;> simp [shownRecords, h]

lemma length_shownRecords_le : (shownRecords directory shown seen).length ≤ seen.length :=
  List.length_filterMap_le ..

variable (limit directory shown) in
/-- The state after the entries `seen`: the array holds their records, and is empty from there on. -/
structure Reached (seen : List JsonEntry) (q : RecoveryQuery) : Prop where
  records : q.records = shownRecords directory shown seen ++ List.replicate (limit - q.count) .zero
  count : q.count = (shownRecords directory shown seen).length
  examined : q.examined = seen.length
  bound : seen.length ≤ limit
  invalid : q.invalid = seen.countP fun e => (e.record directory).isNone
  filtered : q.filtered = seen.countP fun e => (e.record directory).any fun r => !shown r
  limited : q.limited = false
  budget : q.budget + (seen.map JsonEntry.spends).sum = recordReadBudget

lemma reached_start : Reached limit directory shown [] (RecoveryQuery.start limit) where
  records := rfl
  count := rfl
  examined := rfl
  bound := Nat.zero_le _
  invalid := rfl
  filtered := rfl
  limited := rfl
  budget := rfl

namespace Reached

variable (h : Reached limit directory shown seen q)
include h

lemma count_le : q.count ≤ seen.length := h.count ▸ length_shownRecords_le

/-- There is a slot for the next record, and it is empty. -/
lemma records_eq (hlt : seen.length < limit) : q.records = shownRecords directory shown seen ++
    RecoveryIdentity.zero :: List.replicate (limit - (q.count + 1)) .zero := by
  have hcount := h.count_le
  have hsucc : limit - q.count = limit - (q.count + 1) + 1 := by omega
  rw [h.records, hsucc, List.replicate_succ]

lemma slot (hlt : seen.length < limit) : q.records[q.count]? = some .zero := by
  rw [h.records_eq hlt, h.count, List.getElem?_append_right (Nat.le_refl _), Nat.sub_self]
  rfl

/-- What is written into the slot stands behind the records. -/
lemma set_slot (hlt : seen.length < limit) (r : RecoveryIdentity) : q.records.set q.count r =
    shownRecords directory shown seen ++
      r :: List.replicate (limit - (q.count + 1)) .zero := by
  rw [h.records_eq hlt, h.count, List.set_append_right _ _ (Nat.le_refl _), Nat.sub_self]
  rfl

/-- A slot that was written and is cleared again is as it was. -/
lemma set_zero (hlt : seen.length < limit) (r : RecoveryIdentity) :
    (q.records.set q.count r).set q.count .zero = q.records := by
  rw [List.set_set, h.set_slot hlt, h.records_eq hlt]

/-- The state after one more entry. -/
lemma next {e : JsonEntry} (hlt : seen.length < limit) {b : ℕ} (hbudget : b + e.spends = q.budget) :
    Reached limit directory shown (seen ++ [e]) (q.next shown (e.record directory) b) := by
  have hexamined : (q.next shown (e.record directory) b).examined = (seen ++ [e]).length := by
    rw [List.length_append, q.next_examined, h.examined]
    rfl
  have hbound : (seen ++ [e]).length ≤ limit := by
    rw [List.length_append]
    exact hlt
  have hspent : b + ((seen ++ [e]).map JsonEntry.spends).sum = recordReadBudget := by
    have hsum := h.budget
    rw [List.map_append, List.sum_append, List.map_singleton, List.sum_singleton]
    omega
  have hrecords := shownRecords_concat directory shown seen e
  have hinvalid := h.invalid
  have hfiltered := h.filtered
  cases hrecord : e.record directory with
  | none =>
    rw [hrecord] at hexamined hrecords
    rw [Option.filter_none, Option.toList_none, List.append_nil] at hrecords
    refine ⟨hrecords ▸ h.records, hrecords ▸ h.count, hexamined, hbound, ?_, ?_, h.limited, hspent⟩
    · rw [List.countP_append, ← hinvalid, List.countP_singleton, hrecord]
      rfl
    · rw [List.countP_append, ← hfiltered, List.countP_singleton, hrecord]
      rfl
  | some r =>
    rw [hrecord] at hexamined hrecords
    cases hshown : shown r with
    | false =>
      have hnext : q.next shown (some r) b =
          { q with examined := q.examined + 1, filtered := q.filtered + 1, budget := b } := by
        simp [RecoveryQuery.next, hshown]
      rw [show (some r).filter shown = none by simp [Option.filter, hshown], Option.toList_none,
        List.append_nil] at hrecords
      rw [hnext] at hexamined ⊢
      refine ⟨hrecords ▸ h.records, hrecords ▸ h.count, hexamined, hbound, ?_, ?_, h.limited, hspent⟩
      · rw [List.countP_append, ← hinvalid, List.countP_singleton, hrecord]
        rfl
      · rw [List.countP_append, ← hfiltered, List.countP_singleton, hrecord]
        simp [hshown]
    | true =>
      have hnext : q.next shown (some r) b =
          { q with examined := q.examined + 1, count := q.count + 1, budget := b,
                   records := q.records.set q.count r } := by
        simp [RecoveryQuery.next, hshown]
      rw [show (some r).filter shown = some r by simp [Option.filter, hshown],
        Option.toList_some] at hrecords
      rw [hnext] at hexamined ⊢
      refine ⟨?_, ?_, hexamined, hbound, ?_, ?_, h.limited, hspent⟩
      · rw [hrecords, h.set_slot hlt, List.append_assoc]
        rfl
      · rw [hrecords, List.length_append, ← h.count]
        rfl
      · rw [List.countP_append, ← hinvalid, List.countP_singleton, hrecord]
        rfl
      · rw [List.countP_append, ← hfiltered, List.countP_singleton, hrecord]
        simp [hshown]

/-- **One turn**: the limit is met, or the budget is; or the entry is counted as what its record
says. -/
lemma turn_cases (e : JsonEntry) :
    (seen.length = limit ∧
      q.turn limit directory shown e = some ({ q with limited := true }, true)) ∨
    (seen.length < limit ∧ recordReadBudget < ((seen ++ [e]).map JsonEntry.spends).sum ∧
      q.turn limit directory shown e =
        some ({ q with examined := q.examined + 1, limited := true }, true)) ∨
    (seen.length < limit ∧ ∃ q', q.turn limit directory shown e = some (q', false) ∧
      Reached limit directory shown (seen ++ [e]) q') := by
  have hbound := h.bound
  have hexamined := h.examined
  unfold RecoveryQuery.turn
  by_cases hfull : q.examined = limit
  · exact .inl ⟨by omega, if_pos hfull⟩
  have hlt : seen.length < limit := by omega
  refine .inr ?_
  rw [if_neg hfull]
  dsimp only
  by_cases hname : e.name.length ≠ 37 ∨ e.name.drop 32 ≠ str ".json"
  · have hnamed : e.named = false := by
      unfold JsonEntry.named
      grind
    have hrecord : e.record directory = none := by simp [JsonEntry.record, hnamed]
    have hspends : e.spends = 0 := by simp [JsonEntry.spends, hnamed]
    refine .inr ⟨hlt, _, if_pos hname, ?_⟩
    have hnext := h.next (e := e) hlt (b := q.budget) (by rw [hspends, Nat.add_zero])
    rw [hrecord] at hnext
    exact hnext
  rw [if_neg hname, h.slot hlt, Option.bind_eq_bind, Option.bind_some]
  by_cases hid : recoveryIdValid (e.name.take 32) = true
  swap
  · have hnamed : e.named = false := by
      unfold JsonEntry.named
      grind
    have hrecord : e.record directory = none := by simp [JsonEntry.record, hnamed]
    have hspends : e.spends = 0 := by simp [JsonEntry.spends, hnamed]
    have hnext := h.next (e := e) hlt (b := q.budget) (by rw [hspends, Nat.add_zero])
    rw [hrecord] at hnext
    rw [if_neg hid]
    refine .inr ⟨hlt, _, rfl, ?_⟩
    dsimp only [RecoveryQuery.rejected]
    rw [h.set_zero hlt]
    exact hnext
  have hnamed : e.named = true := by
    unfold JsonEntry.named
    grind
  rw [if_pos hid]
  have hspent := h.budget
  obtain ⟨hover, hread⟩ | ⟨hle, r, ⟨hread, hrecord⟩ | ⟨hread, hrecord⟩⟩ :=
    recordRead_cases hnamed directory q.budget
  · refine .inl ⟨hlt, ?_, ?_⟩
    · rw [List.map_append, List.sum_append, List.map_singleton, List.sum_singleton]
      omega
    · rw [hread]
      dsimp only
      rw [h.set_slot hlt, ← h.records_eq hlt]
  · have hnext := h.next (e := e) hlt (b := q.budget - e.spends) (Nat.sub_add_cancel hle)
    rw [hrecord] at hnext
    rw [hread]
    refine .inr ⟨hlt, _, rfl, ?_⟩
    dsimp only [RecoveryQuery.rejected]
    rw [h.set_zero hlt]
    exact hnext
  · have hnext := h.next (e := e) hlt (b := q.budget - e.spends) (Nat.sub_add_cancel hle)
    rw [hrecord] at hnext
    rw [hread]
    dsimp only
    rw [List.set_set]
    cases hplaced : ((recordRetainedPath directory).outcome r).1 with
    | false =>
      rw [hplaced, if_neg Bool.false_ne_true] at hnext
      rw [if_pos rfl]
      refine .inr ⟨hlt, _, rfl, ?_⟩
      dsimp only [RecoveryQuery.rejected]
      rw [h.set_zero hlt]
      exact hnext
    | true =>
      rw [hplaced, if_pos rfl] at hnext
      rw [if_neg (show ¬(true = false) by decide)]
      unfold RecoveryQuery.next at hnext
      dsimp only at hnext
      by_cases hshown : shown ((recordRetainedPath directory).outcome r).2 = true
      · rw [if_pos hshown] at hnext
        rw [if_pos hshown]
        exact .inr ⟨hlt, _, rfl, hnext⟩
      · rw [if_neg hshown] at hnext
        rw [if_neg hshown]
        refine .inr ⟨hlt, _, rfl, ?_⟩
        dsimp only [RecoveryQuery.leftOut]
        rw [h.set_zero hlt]
        exact hnext

/-- Every entry is rendered, invalid or filtered out. -/
lemma total : q.count + q.invalid + q.filtered = seen.length := by
  rw [h.count, h.invalid, h.filtered]
  clear h
  induction seen with
  | nil => rfl
  | cons e seen ih =>
    rw [List.countP_cons, List.countP_cons, List.length_cons, ← ih, shownRecords, List.filterMap_cons]
    cases e.record directory with
    | none => simp [shownRecords]; omega
    | some r =>
      cases hshown : shown r with
      | false => simp [Option.filter, hshown, shownRecords]; omega
      | true => simp [Option.filter, hshown, shownRecords]; omega

end Reached

variable (limit directory shown fails) in
/-- How the loop can end after the entries `seen`. -/
inductive Ended (seen rest : List JsonEntry) (k : ℕ) (q : RecoveryQuery) : RecoveryQuery → Bool → Prop
  | failed (hfails : fails k = true ∨ ∃ e, rest.head? = some e ∧ e.deliverable = false) :
      Ended seen rest k q q false
  | all (hrest : rest = []) (hfails : fails k = false) : Ended seen rest k q q true
  | full (hfull : seen.length = limit) : Ended seen rest k q { q with limited := true } false
  | budget (e : JsonEntry) (hrest : rest.head? = some e) (hlt : seen.length < limit)
      (hover : recordReadBudget < ((seen ++ [e]).map JsonEntry.spends).sum) :
      Ended seen rest k q { q with examined := q.examined + 1, limited := true } false

/-- **The run**: it ends after some of the entries, none of which could not be delivered. -/
lemma runFrom_ended {entries : List JsonEntry} : ∀ {k : ℕ} {seen : List JsonEntry} {q : RecoveryQuery},
    Reached limit directory shown seen q → ∃ (n : ℕ) (q' q'' : RecoveryQuery) (ended : Bool),
      q.runFrom limit directory shown fails k entries = some (q'', ended) ∧ n ≤ entries.length ∧
      (∀ e ∈ entries.take n, e.deliverable = true) ∧ (∀ i < n, fails (k + i) = false) ∧
      Reached limit directory shown (seen ++ entries.take n) q' ∧
      Ended limit fails (seen ++ entries.take n) (entries.drop n) (k + n) q' q'' ended := by
  induction entries with
  | nil =>
    intro k seen q h
    have h' : Reached limit directory shown (seen ++ [].take 0) q := by simpa using h
    cases hfails : fails k with
    | false => exact ⟨0, q, q, true, by simp [RecoveryQuery.runFrom, hfails], le_rfl, by simp, by simp,
        h', .all rfl hfails⟩
    | true => exact ⟨0, q, q, false, by simp [RecoveryQuery.runFrom, hfails], le_rfl, by simp, by simp,
        h', .failed (.inl hfails)⟩
  | cons e entries ih =>
    intro k seen q h
    have h' : Reached limit directory shown (seen ++ (e :: entries).take 0) q := by simpa using h
    by_cases hstop : (fails k || !e.deliverable) = true
    · refine ⟨0, q, q, false, by simp only [RecoveryQuery.runFrom, hstop, if_true], Nat.zero_le _,
        by simp, by simp, h', .failed ?_⟩
      rw [Bool.or_eq_true, Bool.not_eq_true'] at hstop
      exact hstop.imp id fun hnot => ⟨e, rfl, hnot⟩
    have hstep : ∀ q1 left, q.turn limit directory shown e = some (q1, left) →
        q.runFrom limit directory shown fails k (e :: entries) =
          if left then some (q1, false) else
            q1.runFrom limit directory shown fails (k + 1) entries := by
      intro q1 left hturn
      rw [RecoveryQuery.runFrom, if_neg hstop, hturn]
      rfl
    obtain ⟨hfull, hturn⟩ | ⟨hlt, hover, hturn⟩ | ⟨-, q1, hturn, h1⟩ := h.turn_cases e
    · exact ⟨0, q, _, false, hstep _ _ hturn, Nat.zero_le _, by simp, by simp, h',
        .full (by simpa using hfull)⟩
    · refine ⟨0, q, _, false, hstep _ _ hturn, Nat.zero_le _, by simp, by simp, h', .budget e rfl ?_ ?_⟩
      · simpa using hlt
      · simpa using hover
    · obtain ⟨n, q', q'', ended, hrun, hn, hdeliver, hfails, hreached, hended⟩ := ih (k := k + 1) h1
      have hseen : seen ++ [e] ++ entries.take n = seen ++ (e :: entries).take (n + 1) := by simp
      have hplace : k + 1 + n = k + (n + 1) := by omega
      rw [hseen] at hreached hended
      rw [hplace] at hended
      refine ⟨n + 1, q', q'', ended, (hstep _ _ hturn).trans hrun, ?_, ?_, ?_, hreached, hended⟩
      · rw [List.length_cons]
        omega
      · intro e' he'
        rw [List.take_succ_cons] at he'
        rcases List.mem_cons.1 he' with rfl | he'
        · simp_all
        · exact hdeliver e' he'
      · intro i hi
        cases i with
        | zero => simp_all
        | succ i =>
          have hi := hfails i (by omega)
          rw [show k + (i + 1) = k + 1 + i by omega]
          exact hi

end Loop

/-! ### The report -/

/-- The members of a record in the output, and their values. -/
def RecoveryIdentity.values (r : RecoveryIdentity) : List (Bytes × Option Bytes) :=
  let nonempty (b : Bytes) := if cstr b = [] then none else some (cstr b)
  [(str "operationId", some (cstr r.id)), (str "operation", some (cstr r.operation)),
    (str "created", some (cstr r.created)), (str "updated", some (cstr r.updated)),
    (str "planDigest", some (cstr r.plan)), (str "status", some (cstr r.status)),
    (str "phase", some (cstr r.phase)), (str "name", some (cstr r.name)),
    (str "arch", some (cstr r.arch)), (str "oldVersion", nonempty r.oldVersion),
    (str "newVersion", nonempty r.newVersion), (str "source", some (cstr r.source)),
    (str "inputPath", some (cstr r.input)), (str "blake2b256", some (cstr r.fingerprint)),
    (str "signer", nonempty r.signer), (str "inputStatus", some r.inputStatus),
    (str "retainedInputPath", nonempty r.retainedPath),
    (str "retainedInputStatus", some r.retainedStatus)]

def boolText (b : Bool) : Bytes := if b then str "true" else str "false"

/-- `record_render` as JSON: the text, and whether all of its strings could be encoded. -/
def recordRender (r : RecoveryIdentity) : Bytes × Bool :=
  let encoded := r.values.map fun p => (p.1, encodeString p.2)
  (jsonObject ((encoded.map fun p => (p.1, p.2.getD (str "null"))) ++
    [(str "externalStateMayHaveChanged", boolText r.external),
      (str "scriptExitCode", if r.exitKnown then decimal r.scriptExit else str "null"),
      (str "authenticated", str "false"), (str "externalStateKnown", str "false"),
      (str "retryEligible", str "false"), (str "safeActions", str "[\"inspect\"]"),
      (str "artifactInventoryInterpreted", boolText r.inventoryKnown)]),
    encoded.all fun p => p.2.isSome)

/-- What a query reports: the records it renders, its counters, and its document if that is asked
for. -/
structure RecoveryReport where
  rendered : List RecoveryIdentity
  examined : ℕ
  invalid : ℕ
  filtered : ℕ
  limited : Bool
  complete : Bool
  document : Option Bytes

/-- `record_order`. -/
def recordOrder (a b : RecoveryIdentity) : Bool := compare (cstr a.id) (cstr b.id) ≠ .gt

/-- The document of a query. -/
def recoveryDocument (rendered : List RecoveryIdentity) (q : RecoveryQuery) (complete : Bool) : Bytes :=
  jsonObject
    [(str "schema", literal (str "wpm.recovery-query.v1")),
      (str "records", jsonArray (rendered.map fun r => (recordRender r).1)),
      (str "summary", jsonObject
        [(str "examined", decimal q.examined), (str "records", decimal q.count),
          (str "invalidOrUnreadable", decimal q.invalid), (str "filteredOut", decimal q.filtered),
          (str "limited", boolText q.limited)]),
      (str "complete", boolText complete), (str "exitCode", if complete then str "0" else str "1"),
      (str "retrySupported", str "false")] ++ [10]

/-- The end of `wpm_recovery_records`. -/
def RecoveryQuery.report (q : RecoveryQuery) (json complete : Bool) : RecoveryReport :=
  let rendered := (q.records.take q.count).mergeSort recordOrder
  let complete := complete && (!json || rendered.all fun r => (recordRender r).2)
  { rendered, examined := q.examined, invalid := q.invalid, filtered := q.filtered,
    limited := q.limited, complete,
    document := if json then some (recoveryDocument rendered q complete) else none }

/-- `wpm_recovery_records` without an operation id. -/
def recoveryRecords (env : RecoveryEnv) (limit : ℕ) (json archive allowUnsigned : Bool)
    (name arch : Option Bytes) : Option RecoveryReport :=
  if limit = 0 ∨ 4096 < limit ∨ archive ∨ allowUnsigned ∨ recoveryFiltersValid name arch = false then
    some ((RecoveryQuery.start 0).report json false)
  else
    let q := RecoveryQuery.start limit
    match env.root with
    | none => some (q.report json false)
    | some root =>
      if pathSize ≤ root.length + 10 then some (q.report json false)
      else match env.recovery with
        | .absent => some (q.report json true)
        | .failed => some (q.report json false)
        | .opened canonical directory =>
          if pathSize ≤ canonical.length + 39 then some (q.report json false)
          else do
            let (q, ended) ← q.runFrom limit canonical (RecoveryIdentity.matchesFilters name arch)
              directory.fails 0 directory.entries
            some (q.report json (q.invalid = 0 && !q.limited && ended))

/-! ### What is reported -/

/-- The recovery directory, its entries, and where their enumeration fails. -/
def RecoveryEnv.directory (env : RecoveryEnv) : Bytes :=
  match env.recovery with
  | .opened canonical _ => canonical
  | _ => []

def RecoveryEnv.entries (env : RecoveryEnv) : List JsonEntry :=
  match env.recovery with
  | .opened _ directory => directory.entries
  | _ => []

def RecoveryEnv.fails (env : RecoveryEnv) : ℕ → Bool :=
  match env.recovery with
  | .opened _ directory => directory.fails
  | _ => fun _ => false

/-- **A report that is accurate** as to the first `n` entries of the directory: these are the ones
that were read. -/
structure RecoveryReport.Accurate (env : RecoveryEnv) (limit : ℕ) (name arch : Option Bytes) (n : ℕ)
    (r : RecoveryReport) : Prop where
  reached : n ≤ env.entries.length
  rendered : r.rendered.Perm (shownRecords env.directory (RecoveryIdentity.matchesFilters name arch)
    (env.entries.take n))
  ordered : r.rendered.Pairwise fun a b => compare (cstr a.id) (cstr b.id) ≠ .gt
  invalid : r.invalid = (env.entries.take n).countP fun e => (e.record env.directory).isNone
  filtered : r.filtered = (env.entries.take n).countP fun e =>
    (e.record env.directory).any fun r => !r.matchesFilters name arch
  counted : r.rendered.length + r.invalid + r.filtered = n
  examined : r.examined = r.rendered.length + r.invalid + r.filtered ∨
    r.examined = r.rendered.length + r.invalid + r.filtered + 1 ∧ r.limited = true ∧
      n < env.entries.length ∧
      recordReadBudget < ((env.entries.take (n + 1)).map JsonEntry.spends).sum
  bound : r.examined ≤ limit
  complete : r.complete = true → n = env.entries.length ∧ r.limited = false ∧
    (∀ i ≤ n, env.fails i = false) ∧
    ∀ e ∈ env.entries, e.deliverable = true ∧ (e.record env.directory).isSome = true

/-- **Why a search ends** after the first `n` entries: there are no more, or there is no room for
another record, or the next one is more than the budget allows, or the enumeration fails. -/
inductive RecoveryReport.Stopped (env : RecoveryEnv) (limit n : ℕ) (r : RecoveryReport) : Prop
  | all (hall : n = env.entries.length)
  | full (hfull : n = limit) (hlimited : r.limited = true)
  | budget (hover : recordReadBudget < ((env.entries.take (n + 1)).map JsonEntry.spends).sum)
      (hlimited : r.limited = true)
  | failed (hfails : env.fails n = true ∨ ∃ e, env.entries[n]? = some e ∧ e.deliverable = false)

/-- The query goes through the directory: its arguments are accepted, the paths fit, and the
directory is opened. -/
structure Searched (env : RecoveryEnv) (limit : ℕ) (archive allowUnsigned : Bool)
    (name arch : Option Bytes) : Prop where
  limits : limit ≠ 0 ∧ limit ≤ 4096
  options : archive = false ∧ allowUnsigned = false
  filters : recoveryFiltersValid name arch = true
  root : ∃ root, env.root = some root ∧ root.length + 10 < pathSize
  opened : ∃ canonical directory, env.recovery = .opened canonical directory ∧
    canonical.length + 39 < pathSize

lemma recordOrder_eq (a b : RecoveryIdentity) :
    recordOrder a b = (compare (cstr a.id) (cstr b.id)).isLE := by
  unfold recordOrder
  cases compare (cstr a.id) (cstr b.id) <;> rfl

lemma recordOrder_trans (a b c : RecoveryIdentity) (hab : recordOrder a b = true)
    (hbc : recordOrder b c = true) : recordOrder a c = true := by
  rw [recordOrder_eq] at hab hbc ⊢
  exact Std.TransOrd.isLE_trans hab hbc

lemma recordOrder_total (a b : RecoveryIdentity) : (recordOrder a b || recordOrder b a) = true := by
  have hswap : compare (cstr b.id) (cstr a.id) = (compare (cstr a.id) (cstr b.id)).swap :=
    Std.OrientedOrd.eq_swap
  rw [recordOrder_eq, recordOrder_eq, hswap]
  cases compare (cstr a.id) (cstr b.id) <;> rfl

lemma pairwise_mergeSort (l : List RecoveryIdentity) :
    (l.mergeSort recordOrder).Pairwise fun a b => compare (cstr a.id) (cstr b.id) ≠ .gt := by
  have hsorted := List.pairwise_mergeSort recordOrder_trans recordOrder_total l
  refine hsorted.imp fun {a b} h => ?_
  simpa [recordOrder] using h

lemma Reached.take_records {limit : ℕ} {directory : Bytes} {shown : RecoveryIdentity → Bool}
    {seen : List JsonEntry} {q : RecoveryQuery} (h : Reached limit directory shown seen q) :
    q.records.take q.count = shownRecords directory shown seen := by
  rw [h.records, h.count, List.take_left]

/-- The report of a query that reads no entry. -/
lemma accurate_start {env : RecoveryEnv} {limit slots : ℕ} (json complete : Bool)
    (name arch : Option Bytes) (h : complete = true → env.recovery = .absent) :
    ((RecoveryQuery.start slots).report json complete).Accurate env limit name arch 0 where
  reached := Nat.zero_le _
  rendered := List.mergeSort_perm ..
  ordered := pairwise_mergeSort _
  invalid := rfl
  filtered := rfl
  counted := by simp [RecoveryQuery.report, RecoveryQuery.start]
  examined := .inl (by simp [RecoveryQuery.report, RecoveryQuery.start])
  bound := Nat.zero_le _
  complete := by
    intro hcomplete
    have habsent := h (Bool.and_eq_true_iff.1 hcomplete).1
    have hentries : env.entries = [] := by simp [RecoveryEnv.entries, habsent]
    refine ⟨by rw [hentries]; rfl, rfl, ?_, ?_⟩
    · intro i _
      simp [RecoveryEnv.fails, habsent]
    · rw [hentries]
      exact fun e he => absurd he List.not_mem_nil

lemma take_succ_of_head?_drop {l : List JsonEntry} {n : ℕ} {e : JsonEntry}
    (h : (l.drop n).head? = some e) : n < l.length ∧ l.take (n + 1) = l.take n ++ [e] := by
  rw [List.head?_drop] at h
  refine ⟨(List.getElem?_eq_some_iff.1 h).1, ?_⟩
  rw [List.take_add_one, h]
  rfl

/-- Why the run through the directory ends is why the search does. -/
lemma stopped_run {env : RecoveryEnv} {limit : ℕ} {canonical : Bytes} {directory : JsonDirectory}
    (hopened : env.recovery = .opened canonical directory) (json complete : Bool) {n : ℕ}
    {q q' : RecoveryQuery} {ended : Bool} (hn : n ≤ directory.entries.length)
    (hended : Ended limit directory.fails (directory.entries.take n) (directory.entries.drop n) n
      q q' ended) : (q'.report json complete).Stopped env limit n := by
  have hentries : env.entries = directory.entries := by simp [RecoveryEnv.entries, hopened]
  have henvfails : env.fails = directory.fails := by simp [RecoveryEnv.fails, hopened]
  cases hended with
  | failed hfail =>
    refine .failed ?_
    rw [hentries, henvfails, ← List.head?_drop]
    exact hfail
  | all hrest =>
    refine .all ?_
    have hlen := List.drop_eq_nil_iff.1 hrest
    rw [hentries]
    omega
  | full hfull =>
    rw [List.length_take, Nat.min_eq_left hn] at hfull
    exact .full hfull rfl
  | budget e hrest hlt hover =>
    refine .budget ?_ rfl
    rw [hentries, (take_succ_of_head?_drop hrest).2]
    exact hover

/-- The report of a query that goes through the directory. -/
lemma accurate_run {env : RecoveryEnv} {limit : ℕ} {canonical : Bytes} {directory : JsonDirectory}
    (hopened : env.recovery = .opened canonical directory) (json : Bool) {name arch : Option Bytes}
    {n : ℕ} {q q' : RecoveryQuery} {ended : Bool} (hn : n ≤ directory.entries.length)
    (hdeliver : ∀ e ∈ directory.entries.take n, e.deliverable = true)
    (hfails : ∀ i < n, directory.fails i = false)
    (h : Reached limit canonical (RecoveryIdentity.matchesFilters name arch)
      (directory.entries.take n) q)
    (hended : Ended limit directory.fails (directory.entries.take n) (directory.entries.drop n) n
      q q' ended) :
    (q'.report json (q'.invalid = 0 && !q'.limited && ended)).Accurate env limit name arch n := by
  have hdirectory : env.directory = canonical := by simp [RecoveryEnv.directory, hopened]
  have hentries : env.entries = directory.entries := by simp [RecoveryEnv.entries, hopened]
  have henvfails : env.fails = directory.fails := by simp [RecoveryEnv.fails, hopened]
  have hsame : q'.records = q.records ∧ q'.count = q.count ∧ q'.invalid = q.invalid ∧
      q'.filtered = q.filtered := by
    cases hended <;> exact ⟨rfl, rfl, rfl, rfl⟩
  obtain ⟨hrecords, hcount, hinvalid, hfiltered⟩ := hsame
  have hperm : (q'.report json (q'.invalid = 0 && !q'.limited && ended)).rendered.Perm
      (shownRecords canonical (RecoveryIdentity.matchesFilters name arch)
        (directory.entries.take n)) := by
    rw [← h.take_records, ← hrecords, ← hcount]
    exact List.mergeSort_perm ..
  have hlength : (q'.report json (q'.invalid = 0 && !q'.limited && ended)).rendered.length =
      q.count := by rw [hperm.length_eq, h.count]
  have htake : (directory.entries.take n).length = n := by
    rw [List.length_take]
    omega
  have htotal := h.total
  have hexamined := h.examined
  have hbound := h.bound
  rw [htake] at htotal hexamined hbound
  refine ⟨hentries ▸ hn, ?_, pairwise_mergeSort _, ?_, ?_, ?_, ?_, ?_, ?_⟩
  · rw [hdirectory, hentries]
    exact hperm
  · rw [hdirectory, hentries, ← h.invalid]
    exact hinvalid
  · rw [hdirectory, hentries, ← h.filtered]
    exact hfiltered
  · rw [hlength]
    dsimp only [RecoveryQuery.report]
    omega
  · rw [hlength]
    dsimp only [RecoveryQuery.report]
    cases hended with
    | failed => exact .inl (by omega)
    | all => exact .inl (by omega)
    | full => exact .inl (by dsimp only; omega)
    | budget e hrest hlt hover =>
      obtain ⟨hlength', htake'⟩ := take_succ_of_head?_drop hrest
      refine .inr ⟨by dsimp only; omega, rfl, hentries ▸ hlength', ?_⟩
      rw [hentries, htake']
      exact hover
  · dsimp only [RecoveryQuery.report]
    cases hended with
    | failed => omega
    | all => omega
    | full => dsimp only; omega
    | budget e hrest hlt hover =>
      dsimp only
      omega
  · intro hcomplete
    obtain ⟨⟨hall, hlimited⟩, hlast⟩ : (q'.invalid = 0 ∧ q'.limited = false) ∧ ended = true := by
      simpa using (Bool.and_eq_true_iff.1 hcomplete).1
    cases hended with
    | failed => exact absurd hlast Bool.false_ne_true
    | full => exact absurd hlast Bool.false_ne_true
    | budget => exact absurd hlast Bool.false_ne_true
    | all hrest hfail =>
      have hn' : n = directory.entries.length := by
        have hlen := List.drop_eq_nil_iff.1 hrest
        omega
      rw [hn', List.take_length] at hdeliver h
      refine ⟨hentries ▸ hn', hlimited, ?_, ?_⟩
      · intro i hi
        rw [henvfails]
        rcases Nat.lt_or_eq_of_le hi with hi | rfl
        · exact hfails i hi
        · exact hfail
      · intro e he
        rw [hentries] at he
        rw [hdirectory]
        refine ⟨hdeliver e he, ?_⟩
        have hnone := h.invalid
        rw [hall] at hnone
        have hnot := List.countP_eq_zero.1 hnone.symm e he
        exact Option.isSome_iff_ne_none.2 (by simpa using hnot)

/-- **The list of the recovery records is accurate**: no slot outside of the array is used; exactly
the admitted records that match the filters are rendered, in the order of their ids, of all entries
or of those before the one at which the search has to end; the counters add up; and a report that is
complete has admitted every entry. -/
theorem recoveryRecords_accurate (env : RecoveryEnv) (limit : ℕ) (json archive allowUnsigned : Bool)
    (name arch : Option Bytes) :
    ∃ r, recoveryRecords env limit json archive allowUnsigned name arch = some r ∧
      (r.complete = true → env.recovery = .absent ∨
        Searched env limit archive allowUnsigned name arch) ∧
      ∃ n, r.Accurate env limit name arch n ∧
        (Searched env limit archive allowUnsigned name arch → r.Stopped env limit n) := by
  -- a query that goes through no directory
  have hnone : ∀ slots complete, (complete = true → env.recovery = .absent) →
      ¬Searched env limit archive allowUnsigned name arch →
      ∃ r, some ((RecoveryQuery.start slots).report json complete) = some r ∧
        (r.complete = true → env.recovery = .absent ∨
          Searched env limit archive allowUnsigned name arch) ∧
        ∃ n, r.Accurate env limit name arch n ∧
          (Searched env limit archive allowUnsigned name arch → r.Stopped env limit n) := by
    intro slots complete habsent hnot
    refine ⟨_, rfl, fun hcomplete => ?_, 0, accurate_start json complete name arch habsent,
      fun h => absurd h hnot⟩
    exact .inl (habsent (Bool.and_eq_true_iff.1 hcomplete).1)
  unfold recoveryRecords
  split_ifs with hrefused
  · refine hnone 0 false (by simp) fun h => ?_
    obtain h0 | hmany | harchive | hallow | hfilters := hrefused
    · exact h.limits.1 h0
    · exact absurd hmany (by have := h.limits.2; omega)
    · exact absurd (h.options.1.symm.trans harchive) Bool.false_ne_true
    · exact absurd (h.options.2.symm.trans hallow) Bool.false_ne_true
    · exact absurd (hfilters.symm.trans h.filters) Bool.false_ne_true
  cases henv : env.root with
  | none =>
    refine hnone limit false (by simp) fun h => ?_
    obtain ⟨root, hroot, -⟩ := h.root
    exact absurd (henv.symm.trans hroot).symm (Option.some_ne_none root)
  | some root =>
    dsimp only
    split_ifs with hroot
    · refine hnone limit false (by simp) fun h => ?_
      obtain ⟨root', hroot', hlt⟩ := h.root
      obtain rfl := Option.some.inj (henv.symm.trans hroot')
      omega
    cases hrecovery : env.recovery with
    | absent =>
      have hresult := hnone limit true (fun _ => hrecovery) fun h => by
        obtain ⟨canonical, directory, hopened, -⟩ := h.opened
        rw [hrecovery] at hopened
        exact GuardOpen.noConfusion hopened
      rwa [hrecovery] at hresult
    | failed =>
      have hresult := hnone limit false (by simp) fun h => by
        obtain ⟨canonical, directory, hopened, -⟩ := h.opened
        rw [hrecovery] at hopened
        exact GuardOpen.noConfusion hopened
      rwa [hrecovery] at hresult
    | opened canonical directory =>
      dsimp only
      split_ifs with hcanonical
      · have hresult := hnone limit false (by simp) fun h => by
          obtain ⟨canonical', directory', hopened, hlt⟩ := h.opened
          rw [hrecovery] at hopened
          obtain ⟨rfl, rfl⟩ := GuardOpen.opened.inj hopened
          omega
        simpa only [hrecovery, reduceCtorEq, false_or] using hresult
      have hstart : Reached limit canonical (RecoveryIdentity.matchesFilters name arch) []
          (RecoveryQuery.start limit) := reached_start
      obtain ⟨n, q', q'', ended, hrun, hn, hdeliver, hfails, hreached, hended⟩ :=
        @runFrom_ended _ _ _ directory.fails directory.entries 0 _ _ hstart
      rw [hrun]
      simp only [Nat.zero_add, List.nil_append] at hfails hreached hended
      rw [not_or, not_or, not_or, not_or] at hrefused
      obtain ⟨h0, hmany, harchive, hallow, hfilters⟩ := hrefused
      have hsearched : Searched env limit archive allowUnsigned name arch :=
        ⟨⟨h0, Nat.not_lt.1 hmany⟩, ⟨by simpa using harchive, by simpa using hallow⟩,
          by simpa using hfilters, ⟨root, henv, by omega⟩,
          ⟨canonical, directory, hrecovery, by omega⟩⟩
      exact ⟨_, rfl, fun _ => .inr hsearched, n,
        accurate_run hrecovery json hn hdeliver hfails hreached hended,
        fun _ => stopped_run hrecovery json _ hn hended⟩

end Wpm.Operation
