import Wpm.Lib.CString
import Mathlib.Data.List.Nodup
import Mathlib.Logic.Function.Basic

/-!
Records of lines `key=value`, in which no field is found twice.

What is read of a text depends only on the entries that its lines make: a line with an unknown key
makes none.
-/

namespace Wpm.Lib.Fields

open Wpm.Lib.CString

variable {φ : Type*} [DecidableEq φ] (fieldOf : Bytes → Option φ) (accepts : φ → Bytes → Bool)

/-- A line is read into the fields: its value must be acceptable, and the field a new one. -/
def readLine (fields : φ → Option Bytes) (line : Bytes) : Option (φ → Option Bytes) :=
  match cutAt (ch '=') line with
  | none => none
  | some (key, value) =>
    match fieldOf key with
    | none => some fields
    | some field =>
      if (fields field).isSome ∨ accepts field value = false then none
      else some (Function.update fields field (some value))

/-- The lines are read one after the other. -/
def readLines : List Bytes → (φ → Option Bytes) → Option (φ → Option Bytes)
  | [], fields => some fields
  | line :: lines, fields =>
    match readLine fieldOf accepts fields line with
    | none => none
    | some fields => readLines lines fields

/-- The entry that a line makes. -/
def entry (line : Bytes) : Option (φ × Bytes) :=
  (cutAt (ch '=') line).bind fun p => (fieldOf p.1).map fun field => (field, p.2)

variable {fieldOf accepts} {fields fields' : φ → Option Bytes} {line : Bytes} {lines : List Bytes}

/-- The fields with an entry put in. -/
def put (fields : φ → Option Bytes) : Option (φ × Bytes) → φ → Option Bytes
  | none => fields
  | some e => Function.update fields e.1 (some e.2)

/-- What it takes for a line to be read, and what is read then. -/
lemma readLine_eq_some : readLine fieldOf accepts fields line = some fields' ↔
    ch '=' ∈ line ∧
      (∀ e, entry fieldOf line = some e → fields e.1 = none ∧ accepts e.1 e.2 = true) ∧
      put fields (entry fieldOf line) = fields' := by
  unfold readLine entry
  cases hcut : cutAt (ch '=') line with
  | none =>
    have hmem := cutAt_eq_none.1 hcut
    exact ⟨fun h => absurd h.symm (Option.some_ne_none _), fun h => absurd h.1 hmem⟩
  | some p =>
    obtain ⟨key, value⟩ := p
    have hmem : ch '=' ∈ line := by
      rw [(cutAt_eq_some.1 hcut).1]
      exact List.mem_append_right _ List.mem_cons_self
    rw [Option.bind_some]
    dsimp only
    cases fieldOf key with
    | none =>
      exact ⟨fun h => ⟨hmem, fun e he => absurd he.symm (Option.some_ne_none _),
        Option.some.inj h⟩, fun h => congrArg some h.2.2⟩
    | some field =>
      rw [Option.map_some, ite_eq_iff]
      constructor
      · rintro (⟨-, h⟩ | ⟨hok, h⟩)
        · exact absurd h.symm (Option.some_ne_none _)
        · rw [not_or, Bool.not_eq_true, Option.isSome_eq_false_iff, Option.isNone_iff_eq_none,
            Bool.not_eq_false] at hok
          refine ⟨hmem, fun e he => ?_, Option.some.inj h⟩
          obtain rfl := Option.some.inj he
          exact hok
      · rintro ⟨-, hok, h⟩
        obtain ⟨hnone, haccepts⟩ := hok _ rfl
        refine Or.inr ⟨?_, congrArg some h⟩
        dsimp only at hnone haccepts
        rw [hnone, haccepts]
        decide

/-- A field that is read keeps its value. -/
lemma readLines_keeps (h : readLines fieldOf accepts lines fields = some fields') {field : φ}
    {value : Bytes} (hfield : fields field = some value) : fields' field = some value := by
  induction lines generalizing fields with
  | nil =>
    obtain rfl := Option.some.inj h
    exact hfield
  | cons line lines ih =>
    rw [readLines] at h
    cases hline : readLine fieldOf accepts fields line with
    | none => rw [hline] at h; exact absurd h.symm (Option.some_ne_none _)
    | some next =>
      rw [hline] at h
      refine ih h ?_
      obtain ⟨-, hnew, hnext⟩ := readLine_eq_some.1 hline
      rw [← hnext]
      cases he : entry fieldOf line with
      | none => exact hfield
      | some e =>
        have hne : field ≠ e.1 := by
          rintro rfl
          exact absurd (hfield.symm.trans (hnew e he).1) (Option.some_ne_none _)
        exact (Function.update_of_ne hne ..).trans hfield

/-- Every entry is found in what is read. -/
theorem readLines_entry (h : readLines fieldOf accepts lines fields = some fields')
    {e : φ × Bytes} (he : e ∈ lines.filterMap (entry fieldOf)) :
    fields' e.1 = some e.2 ∧ fields e.1 = none ∧ accepts e.1 e.2 = true := by
  induction lines generalizing fields with
  | nil => exact absurd he List.not_mem_nil
  | cons line lines ih =>
    rw [readLines] at h
    cases hline : readLine fieldOf accepts fields line with
    | none => rw [hline] at h; exact absurd h.symm (Option.some_ne_none _)
    | some next =>
      rw [hline] at h
      obtain ⟨-, hnew, hnext⟩ := readLine_eq_some.1 hline
      cases hentry : entry fieldOf line with
      | none =>
        rw [List.filterMap_cons_none hentry] at he
        rw [hentry] at hnext
        obtain rfl : fields = next := hnext
        exact ih h he
      | some e' =>
        rw [List.filterMap_cons_some hentry] at he
        rw [hentry] at hnext
        replace hnext : next = Function.update fields e'.1 (some e'.2) := hnext.symm
        rcases List.mem_cons.1 he with rfl | he
        · refine ⟨readLines_keeps h ?_, hnew e hentry⟩
          rw [hnext]
          exact Function.update_self ..
        · obtain ⟨hfound, hnone, haccepts⟩ := ih h he
          have hne : e.1 ≠ e'.1 := by
            intro heq
            rw [hnext, heq] at hnone
            exact absurd ((Function.update_self ..).symm.trans hnone) (Option.some_ne_none _)
          refine ⟨hfound, ?_, haccepts⟩
          rw [hnext] at hnone
          exact (Function.update_of_ne hne ..).symm.trans hnone

/-- **A text is read** when every line has a key, no field is found twice or was there before, and
the values are acceptable. -/
theorem readLines_isSome_iff : (∃ fields', readLines fieldOf accepts lines fields = some fields') ↔
    (∀ line ∈ lines, ch '=' ∈ line) ∧
      ((lines.filterMap (entry fieldOf)).map Prod.fst).Nodup ∧
      ∀ e ∈ lines.filterMap (entry fieldOf), fields e.1 = none ∧ accepts e.1 e.2 = true := by
  induction lines generalizing fields with
  | nil => simp [readLines]
  | cons line lines ih =>
    constructor
    · rintro ⟨fields', h⟩
      have hentries := fun e he => (readLines_entry (e := e) h he).2
      rw [readLines] at h
      cases hline : readLine fieldOf accepts fields line with
      | none => rw [hline] at h; exact absurd h.symm (Option.some_ne_none _)
      | some next =>
        rw [hline] at h
        obtain ⟨hkey, hnew, hnext⟩ := readLine_eq_some.1 hline
        obtain ⟨hkeys, hnodup, hrest⟩ := ih.1 ⟨fields', h⟩
        refine ⟨fun l hl => ?_, ?_, hentries⟩
        · rcases List.mem_cons.1 hl with rfl | hl
          · exact hkey
          · exact hkeys l hl
        · cases hentry : entry fieldOf line with
          | none => rwa [List.filterMap_cons_none hentry]
          | some e =>
            rw [List.filterMap_cons_some hentry, List.map_cons, List.nodup_cons]
            refine ⟨fun hmem => ?_, hnodup⟩
            -- the field has been read, and is found again
            obtain ⟨e', he', heq⟩ := List.mem_map.1 hmem
            have hnone := (hrest e' he').1
            rw [← hnext, hentry, heq] at hnone
            exact absurd ((Function.update_self ..).symm.trans hnone) (Option.some_ne_none _)
    · rintro ⟨hkeys, hnodup, hentries⟩
      have hhead : ∃ next, readLine fieldOf accepts fields line = some next := by
        refine ⟨_, readLine_eq_some.2 ⟨hkeys line List.mem_cons_self, fun e he => ?_, rfl⟩⟩
        refine hentries e ?_
        rw [List.filterMap_cons_some he]
        exact List.mem_cons_self
      obtain ⟨next, hline⟩ := hhead
      obtain ⟨-, -, hnext⟩ := readLine_eq_some.1 hline
      rw [readLines, hline]
      refine ih.2 ⟨fun l hl => hkeys l (List.mem_cons_of_mem _ hl), ?_, fun e he => ?_⟩
      · cases hentry : entry fieldOf line with
        | none => rwa [List.filterMap_cons_none hentry] at hnodup
        | some e =>
          rw [List.filterMap_cons_some hentry, List.map_cons, List.nodup_cons] at hnodup
          exact hnodup.2
      · cases hentry : entry fieldOf line with
        | none =>
          rw [List.filterMap_cons_none hentry] at hentries
          rw [hentry] at hnext
          obtain rfl : fields = next := hnext
          exact hentries e he
        | some e' =>
          rw [List.filterMap_cons_some hentry] at hentries hnodup
          rw [List.map_cons, List.nodup_cons] at hnodup
          rw [hentry] at hnext
          replace hnext : next = Function.update fields e'.1 (some e'.2) := hnext.symm
          have hne : e.1 ≠ e'.1 := by
            intro heq
            exact hnodup.1 (heq ▸ List.mem_map_of_mem he)
          have hold := hentries e (List.mem_cons_of_mem _ he)
          refine ⟨?_, hold.2⟩
          rw [hnext]
          exact (Function.update_of_ne hne ..).trans hold.1

end Wpm.Lib.Fields
