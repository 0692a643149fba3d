import Wpm.Lib.Outcome
import Wpm.Operation.RecordText
import Wpm.Operation.RecoveryRecords
import Wpm.Repository.CatalogReaders

/-!
What the functions of `recovery_record.c` make of the fields of a document.

Each rule says exactly when a function goes on, and with which record: the texts of the fields are
put into its buffers, and nothing else is changed.
-/

namespace Wpm.Operation

open Wpm.Lib.CString Wpm.Lib.Decimal Wpm.Lib.Json Wpm.Lib.Outcome Wpm.JsonOutput Wpm.JsonInput
open Wpm.Repository (overwriteString writtenUnits_of_readUnits)
open Filling (require value string)
open Wpm.Archive (pathSize)

/-! ### Buffers -/

/-- The value fits into a buffer of `size` bytes, and is not empty. -/
def Fits (size : ℕ) (x : Option Bytes) : Prop := ∀ t ∈ x, t ≠ [] ∧ t.length < size

/-- The buffer after a value was put into it. -/
def put (x : Option Bytes) (buffer : Bytes) : Bytes := match x with
  | none => buffer.set 0 0
  | some t => t ++ 0 :: buffer.drop (t.length + 1)

lemma cstr_put {x : Option Bytes} (h : ∀ t ∈ x, 0 ∉ t) (buffer : Bytes) :
    cstr (put x buffer) = x.getD [] := by
  cases x with
  | none => cases buffer <;> rfl
  | some t =>
    have hcut : cstr (t ++ 0 :: buffer.drop (t.length + 1)) = cstr (t ++ [0]) := by
      rw [← List.singleton_append, ← List.append_assoc, cstr_append_of_mem (by simp)]
    have ht : cstr (t ++ [0]) = t := by
      have h0 := h t rfl
      rw [cstr, List.takeWhile_append_of_pos]
      · simp
      · exact fun c hc => decide_eq_true fun he => h0 (he ▸ hc)
    exact hcut.trans ht

@[simp] lemma fits_none {size : ℕ} : Fits size none := fun _ h => nomatch h

@[simp] lemma fits_some {size : ℕ} {t : Bytes} : Fits size (some t) ↔ t ≠ [] ∧ t.length < size := by
  simp [Fits]

/-! ### One field -/

lemma cur_put {t : Bytes} (h : 0 ∉ t) (buffer : Bytes) :
    cur (put (some t) buffer) = 0 ↔ t = [] := by
  cases t with
  | nil => exact iff_of_true rfl rfl
  | cons c t =>
    refine iff_of_false (fun h0 => h ?_) (List.cons_ne_nil c t)
    rw [show cur (put (some (c :: t)) buffer) = c from rfl] at h0
    exact h0 ▸ List.mem_cons_self

/-- What `record_string` makes of a field: the buffer is only of interest where the value fits. -/
lemma recordString_field {text key : Bytes} {x : Option Bytes} {size : ℕ} {nullable : Bool}
    (h : Field text key x) (hsize : 0 < size) (hx : (x.isSome || nullable) = true)
    (buffer : Bytes) :
    ((recordString text key size nullable buffer).1 = true ↔ Fits size x) ∧
      (Fits size x → (recordString text key size nullable buffer).2 = put x buffer) := by
  obtain ⟨v, rest, hfind, hspelled, hrest⟩ := h
  cases hspelled with
  | null =>
    obtain rfl : nullable = true := hx
    have hliteral : recordLiteral (str "null") (str "null" ++ rest) = true := by
      rw [recordLiteral, List.drop_left, hrest.delimiter, Bool.and_true]
      exact List.isPrefixOf_iff_prefix.2 (List.prefix_append _ _)
    simp only [recordString, hfind, hliteral, Bool.and_self, if_true, fits_none, put,
      forall_const, and_self]
  | @text v t hstring h0 =>
    have hquote : recordLiteral (str "null") (v ++ rest) = false := by
      obtain ⟨b, -, rfl⟩ := hstring
      rfl
    have hread := readString_stringIs true hsize whitespace_nil hstring rest
    rw [List.nil_append] at hread
    simp only [recordString, hfind, hquote, Bool.and_false, Bool.false_eq_true, if_false, fits_some]
    by_cases hfits : t.length < size
    · have hsome : readString true size (v ++ rest) = some (t, rest) := by
        rw [hread, if_neg (not_or.2 ⟨fun h => h0 h.2, Nat.not_le.2 hfits⟩)]
      have hbuffer : (overwriteString size buffer (v ++ rest)).1 = put (some t) buffer := by
        obtain ⟨hquote, hunits⟩ : cur (jsonSpace (v ++ rest)) = ch '"' ∧
            readUnits true size (jsonSpace (v ++ rest)).length 0 (jsonSpace (v ++ rest)).tail =
              some (t, rest) := by
          rw [readString, ite_eq_iff] at hsome
          obtain ⟨-, h⟩ | ⟨hq, h⟩ := hsome
          · exact absurd h (by simp)
          · exact ⟨not_not.1 hq, h⟩
        simp only [overwriteString, hquote, ne_eq, not_true_eq_false, if_false,
          (writtenUnits_of_readUnits hunits).1, List.length_append, List.length_singleton, put]
        rw [List.append_assoc, List.singleton_append]
      rw [hsome]
      simp only [hbuffer, hrest.delimiter, Bool.and_true, ne_eq, decide_not, Bool.not_eq_true',
        decide_eq_false_iff_not, cur_put h0, hfits, and_true, implies_true, and_self]
    · have hnone : readString true size (v ++ rest) = none := by
        rw [hread, if_pos (.inr (Nat.not_lt.1 hfits))]
      rw [hnone]
      exact ⟨iff_of_false Bool.false_ne_true fun h => hfits h.2, fun h => absurd h.2 hfits⟩

/-- A `record_string` into a buffer that only the caller sees. -/
lemma recordValue_field {text key t : Bytes} {x : Option Bytes} {size : ℕ} {nullable : Bool}
    (h : Field text key x) (hzero : ∀ t ∈ x, 0 ∉ t) (hsize : 0 < size)
    (hx : (x.isSome || nullable) = true) :
    recordValue text key size nullable = some t ↔ Fits size x ∧ x.getD [] = t := by
  obtain ⟨hfits, hbuffer⟩ := recordString_field h hsize hx (List.replicate size 0)
  simp only [recordValue]
  by_cases hread : Fits size x
  · rw [if_pos (hfits.2 hread), hbuffer hread, cstr_put hzero, Option.some.injEq]
    exact (and_iff_right hread).symm
  · rw [if_neg (mt hfits.1 hread)]
    exact iff_of_false (Option.some_ne_none t).symm fun h => hread h.1

lemma Field.zero_notMem {text key : Bytes} {x : Option Bytes} (h : Field text key x) :
    ∀ t ∈ x, 0 ∉ t := by
  obtain ⟨v, rest, -, hspelled, -⟩ := h
  exact hspelled.zero_notMem

/-! ### The rules of a filling -/

section Rules

variable {α : Type} {s : RecoveryIdentity} {Q : Unit → RecoveryIdentity → Prop}

@[simp] lemma reaches_require {c : Bool} : Reaches (require c) s Q ↔ c = true ∧ Q () s := by
  cases c with
  | false => exact iff_of_false (not_reaches_of_run rfl) fun h => Bool.false_ne_true h.1
  | true => exact (reaches_iff_of_run rfl).trans (and_iff_right rfl).symm

@[simp] lemma reaches_value {o : Option α} {Q : α → RecoveryIdentity → Prop} :
    Reaches (value o) s Q ↔ ∃ a, o = some a ∧ Q a s := by
  cases o with
  | none => exact iff_of_false (not_reaches_of_run rfl) fun ⟨a, h, _⟩ => nomatch h
  | some a => exact (reaches_iff_of_run rfl).trans ⟨fun h => ⟨a, rfl, h⟩,
      fun ⟨b, hb, h⟩ => Option.some.inj hb ▸ h⟩

/-- A field is read into one of the buffers. -/
lemma reaches_string {text key : Bytes} {x : Option Bytes} {size : ℕ} {nullable : Bool}
    {buffer : RecoveryIdentity → Bytes} {set : RecoveryIdentity → Bytes → RecoveryIdentity}
    (h : Field text key x) (hsize : 0 < size) (hx : (x.isSome || nullable) = true) :
    Reaches (string text key size nullable buffer set) s Q ↔
      Fits size x ∧ Q () (set s (put x (buffer s))) := by
  obtain ⟨hfits, hbuffer⟩ := recordString_field h hsize hx (buffer s)
  simp only [string, reaches_bind, reaches_get, reaches_modify, reaches_require, hfits]
  exact and_congr_right fun hread => by rw [hbuffer hread]

/-- Whether a filling succeeds, and the record that it leaves then. -/
lemma outcome_iff {f : Filling Unit} {P : RecoveryIdentity → Prop} :
    (f.outcome s).1 = true ∧ P (f.outcome s).2 ↔ Reaches f s fun _ t => P t := by
  cases hrun : f.run.run s with
  | mk r t =>
    cases r with
    | error e =>
      refine iff_of_false (fun h => ?_) (not_reaches_of_run hrun)
      simp [Filling.outcome, hrun, Except.isOk, Except.toBool] at h
    | ok a =>
      rw [reaches_iff_of_run hrun]
      simp [Filling.outcome, hrun, Except.isOk, Except.toBool]

end Rules

/-! ### Values that are no strings -/

lemma isPrefixOf_append (a b : Bytes) : a.isPrefixOf (a ++ b) = true :=
  List.isPrefixOf_iff_prefix.2 (List.prefix_append a b)

lemma recordLiteral_append (word : Bytes) {rest : Bytes} (h : Stops rest) :
    recordLiteral word (word ++ rest) = true := by
  rw [recordLiteral, isPrefixOf_append, List.drop_left, h.delimiter]
  rfl

/-- A truth value is read back. -/
lemma recordBool_eq {text key rest : Bytes} {b : Bool}
    (h : jsonUniqueField text key = some ((if b then str "true" else str "false") ++ rest))
    (hrest : Stops rest) : recordBool text key = some b := by
  cases b with
  | true =>
    simp only [recordBool, h, if_true, Option.bind_eq_bind, Option.bind_some,
      recordLiteral_append _ hrest]
  | false =>
    have hother : recordLiteral (str "true") (str "false" ++ rest) = false := rfl
    simp only [recordBool, h, Bool.false_eq_true, if_false, Option.bind_eq_bind, Option.bind_some,
      recordLiteral_append _ hrest, hother, if_true]

lemma Stops.not_isDigit {rest : Bytes} (h : Stops rest) : rest.takeWhile isDigit = [] := by
  obtain ⟨c, t, rfl, hc⟩ := h.exists_cons
  exact List.takeWhile_cons_of_neg (by rcases hc with rfl | rfl <;> decide)

/-- The exit code is read back if it has 32 bits. -/
lemma reaches_recordExit {r : Record} {rest : Bytes} (hrest : Stops rest) {s : RecoveryIdentity}
    {Q : Unit → RecoveryIdentity → Prop} :
    Reaches (recordExit (r.exitText ++ rest)) s Q ↔ (∀ code ∈ r.scriptExitCode, code ≤ 0xffffffff) ∧
      Q () { s with scriptExit := r.scriptExitCode.getD s.scriptExit
                    exitKnown := r.scriptExitCode.isSome } := by
  unfold Record.exitText recordExit
  cases hcode : r.scriptExitCode with
  | none =>
    simp only [recordLiteral_append _ hrest, if_true, reaches_modify]
    exact (and_iff_right (by simp)).symm
  | some code =>
    have hne : decimal code ≠ [] := by
      intro hnil
      have hdigits := List.map_eq_nil_iff.1 hnil
      exact Nat.toDigits_ne_nil hdigits
    obtain ⟨c, t, hdecimal⟩ := List.exists_cons_of_ne_nil hne
    have hdigit : isDigit c = true := isDigit_of_mem_decimal (hdecimal ▸ List.mem_cons_self)
    have hother : recordLiteral (str "null") (decimal code ++ rest) = false := by
      rw [hdecimal]
      have hn : c ≠ ch 'n' := by
        rintro rfl
        exact absurd hdigit (by decide)
      have hprefix : (str "null").isPrefixOf (c :: t ++ rest) = false := by
        change ((ch 'n' == c) && _) = false
        rw [beq_eq_false_iff_ne.2 hn.symm, Bool.false_and]
      rw [recordLiteral, hprefix, Bool.false_and]
    have htake : (decimal code ++ rest).takeWhile isDigit = decimal code := by
      rw [List.takeWhile_append_of_pos fun c hc => isDigit_of_mem_decimal hc, hrest.not_isDigit,
        List.append_nil]
    have hvalue : decValue (decimal code) = code := decValue_toDigits code
    have hcur : isDigit (cur (decimal code ++ rest)) = true := by
      rw [hdecimal]
      exact hdigit
    simp only [hother, Bool.false_eq_true, if_false, reaches_bind, reaches_require, reaches_modify,
      hcur, true_and, htake, hvalue, List.drop_left, hrest.delimiter, Bool.and_true,
      decide_eq_true_eq, Option.mem_def, Option.some.injEq, forall_eq', Option.getD_some,
      Option.isSome_some]
    exact and_congr_right fun hle => by rw [min_eq_left hle]

/-- The list of the actions that are safe is read back. -/
lemma recordActions_eq {rest : Bytes} (h : Stops rest) :
    recordActions (arrayText [literal (str "inspect")] ++ rest) = some () := by
  have hstring : StringIs (literal (str "inspect")) (str "inspect") := stringIs_plain (by decide)
  have hread := readString_stringIs true (by decide : 0 < 16) whitespace_nil hstring
    (ch ']' :: rest)
  have htext : jsonSpace (arrayText [literal (str "inspect")] ++ rest).tail =
      [] ++ (literal (str "inspect") ++ ch ']' :: rest) := rfl
  rw [if_neg (by decide)] at hread
  have hspace : jsonSpace (ch ']' :: rest) = ch ']' :: rest :=
    jsonSpace_eq_self (lead_cons rest (by decide))
  simp only [recordActions, htext, hread, Option.bind_eq_bind, Option.bind_some, hspace, cur_cons,
    List.tail_cons, h.delimiter, and_self, guard, if_true]
  rfl

/-! ### The artifacts -/

section Artifacts

variable {r : Record} {rest : Bytes}

/-- The fields of the artifact, as `p` is where it starts. -/
structure ArtifactFields (r : Record) (p : Bytes) : Prop where
  role : Field p (str "role") (some (str "recovery-input"))
  path : Field p (str "path") (some (redactText r.artifactPath))
  relativePath : Field p (str "relativePath")
    (some (redactText (r.operationId ++ str "/input.zip")))
  blake2b : Field p (str "blake2b256") (some (redactText r.blake2b))
  state : Field p (str "state") (some r.artifactState.text)

/-- What is to hold of an artifact. -/
structure ArtifactFits (r : Record) (fingerprint : Bytes) : Prop where
  path : Fits pathSize (some (redactText r.artifactPath))
  relativePath : Fits 256 (some (redactText (r.operationId ++ str "/input.zip")))
  blake2b : Fits 65 (some (redactText r.blake2b))
  fingerprint : redactText r.blake2b = fingerprint

/-- The record with the artifact. -/
def withArtifact (r : Record) (s : RecoveryIdentity) : RecoveryIdentity :=
  { s with
    inventoryKnown := true
    retainedStatus := str "not-checked"
    retainedRelative := put (some (redactText (r.operationId ++ str "/input.zip")))
      s.retainedRelative
    retainedState := put (some r.artifactState.text) s.retainedState
    retainedKnown := true }

lemma Retained.text_spec (state : Retained) : (0 ∉ state.text ∧ state.text ≠ []) ∧
    state.text.length < 16 ∧
      state.text ∈ [str "planned", str "incomplete", str "retained"] := by
  cases state <;> decide

/-- The artifact is read. -/
lemma reaches_recordRetained {a : Bytes} (h : ArtifactFields r a) {s : RecoveryIdentity}
    (hknown : s.retainedKnown = false) {Q : Unit → RecoveryIdentity → Prop} :
    Reaches (recordRetained a) s Q ↔ ArtifactFits r (cstr s.fingerprint) ∧
      Q () { withArtifact r s with inventoryKnown := s.inventoryKnown } := by
  obtain ⟨⟨hzero, hne⟩, hlength, hmem⟩ := Retained.text_spec r.artifactState
  have hpath : ∀ t, recordValue a (str "path") pathSize false = some t ↔
      Fits pathSize (some (redactText r.artifactPath)) ∧ redactText r.artifactPath = t := by
    intro t
    rw [recordValue_field h.path h.path.zero_notMem (by decide) rfl, Option.getD_some]
  have hdigest : ∀ t, recordValue a (str "blake2b256") 65 false = some t ↔
      Fits 65 (some (redactText r.blake2b)) ∧ redactText r.blake2b = t := by
    intro t
    rw [recordValue_field h.blake2b h.blake2b.zero_notMem (by decide) rfl, Option.getD_some]
  have hstate : cstr (put (some r.artifactState.text) s.retainedState) = r.artifactState.text :=
    cstr_put h.state.zero_notMem _
  have hfits : Fits 16 (some r.artifactState.text) := fits_some.2 ⟨hne, hlength⟩
  simp only [recordRetained, reaches_bind, reaches_get, reaches_require, reaches_value,
    reaches_modify, reaches_string h.relativePath (by decide : 0 < 256) rfl,
    reaches_string h.state (by decide : 0 < 16) rfl, hpath, hdigest, hknown, hstate, Bool.not_false,
    true_and, and_assoc, exists_and_left, exists_eq_left', decide_eq_true_eq, hmem, hfits,
    withArtifact]
  constructor
  · rintro ⟨hp, hr, hd, he, hq⟩
    exact ⟨⟨hp, hr, hd, he⟩, hq⟩
  · rintro ⟨⟨hp, hr, hd, he⟩, hq⟩
    exact ⟨hp, hr, hd, he, hq⟩

/-- **The list of the artifacts is read**: there is one. -/
lemma reaches_recordArtifacts {object : Bytes} (hobject : Value object)
    (hopens : cur object = ch '{') (h : ArtifactFields r (object ++ ch ']' :: rest))
    (hrest : Stops rest) {s : RecoveryIdentity} (hknown : s.retainedKnown = false)
    {Q : Unit → RecoveryIdentity → Prop} :
    Reaches (recordArtifacts (arrayText [object] ++ rest)) s Q ↔
      ArtifactFits r (cstr s.fingerprint) ∧ Q () (withArtifact r s) := by
  have htext : (arrayText [object] ++ rest).tail = object ++ ch ']' :: rest := by
    simp [arrayText, commas_singleton]
  have hspace : jsonSpace (object ++ ch ']' :: rest) = object ++ ch ']' :: rest :=
    jsonSpace_eq_self hobject.lead
  have hcur : cur (object ++ ch ']' :: rest) = ch '{' := (cur_value_append hobject _).trans hopens
  have hend := @valueEnd_append [] object [] rest (ch ']') whitespace_nil hobject whitespace_nil
    (.inr (.inr rfl))
  have hclose : jsonSpace (ch ']' :: rest) = ch ']' :: rest :=
    jsonSpace_eq_self (lead_cons rest (by decide))
  have hrole : ∀ t, recordValue (object ++ ch ']' :: rest) (str "role") 32 false = some t ↔
      str "recovery-input" = t := fun t =>
    (recordValue_field h.role h.role.zero_notMem (by decide) rfl).trans
      (and_iff_right (fits_some.2 (by decide)))
  rw [List.nil_append, List.nil_append] at hend
  have hne : ch '{' ≠ ch ']' ∧ ch ']' ≠ ch ',' := by decide
  rw [recordArtifacts, htext, hspace]
  change Reaches (do
    modify fun r => { r with inventoryKnown := true, retainedStatus := str "not-recorded" }
    let p ← recordArtifactsFrom (15 + 1) (object ++ ch ']' :: rest)
    require (cur p = ch ']' && recordDelimiter p.tail)) s Q ↔ _
  generalize 15 = fuel
  simp only [recordArtifactsFrom, hcur, if_neg hne.1, reaches_bind, reaches_modify, reaches_require,
    decide_true, true_and, reaches_value, hrole, exists_eq_left', if_true, hend, hclose, cur_cons,
    hne.2, ne_eq, not_false_eq_true, reaches_pure, List.tail_cons, hrest.delimiter, Bool.and_self]
  rw [reaches_recordRetained h]
  · simp only [withArtifact]
  · exact hknown

end Artifacts

end Wpm.Operation
