import Wpm.JsonWritten
import Wpm.JsonEncoding
import Wpm.JsonDocument
import Wpm.Lib.Check
import Wpm.Operation.Record
import Wpm.Operation.RecordParse

/-!
A recovery record as a JSON text.

`Spelled` says what a value in the text stands for: a text, or nothing where it is `null`. `Field`
says that the reader finds a field with such a value. The record is an object with the members of
`Parts.members`, and each of its fields is found.
-/

namespace Wpm.Operation

open Wpm.Lib.CString Wpm.Lib.Check Wpm.Lib.Decimal Wpm.Lib.Json Wpm.Lib.Utf8
open Wpm.JsonOutput Wpm.JsonInput

/-! ### What is written -/

lemma commaList_eq (l : List Bytes) : commaList l = commas l := by
  induction l with
  | nil => rfl
  | cons a l ih =>
    cases l with
    | nil => rw [commaList, commas_singleton]
    | cons b l => rw [commaList, ih, commas_cons a (List.cons_ne_nil b l)]

lemma member_eq (m : Bytes × Bytes) : member m = memberText m := by
  simp [member, memberText]

lemma jsonObject_eq (ms : List (Bytes × Bytes)) : jsonObject ms = objectText ms := by
  have hmap : ms.map member = ms.map memberText := List.map_congr_left fun m _ => member_eq m
  rw [jsonObject, commaList_eq, hmap, objectText]

lemma jsonArray_eq (vs : List Bytes) : jsonArray vs = arrayText vs := by
  rw [jsonArray, commaList_eq, arrayText]

/-- What a value stands for: a text without a zero byte, or nothing. -/
inductive Spelled : Bytes → Option Bytes → Prop
  | null : Spelled (str "null") none
  | text {v x : Bytes} (h : StringIs v x) (h0 : 0 ∉ x) : Spelled v (some x)

lemma Spelled.value {v : Bytes} {x : Option Bytes} (h : Spelled v x) : Value v := by
  cases h with
  | null => exact .literal (.inr (.inr rfl))
  | text h => exact .string (StringIs.isString h)

lemma Spelled.zero_notMem {v : Bytes} {x : Option Bytes} (h : Spelled v x) : ∀ t ∈ x, 0 ∉ t := by
  cases h with
  | null => exact fun t ht => nomatch ht
  | text h h0 =>
    intro t ht
    obtain rfl := Option.some.inj ht
    exact h0

/-- Every text of the value is a C string. -/
def Terminated (text : Option Bytes) : Prop := ∀ t ∈ text, 0 ∉ t

lemma zero_notMem_redactText {t : Bytes} (h : 0 ∉ t) : 0 ∉ redactText t := fun hmem =>
  (mem_of_mem_redactText hmem).elim h (by decide)

/-- **An encoded text stands for what the redaction leaves of it.** -/
lemma spelled_encodeString {text : Option Bytes} {v : Bytes} (h : Terminated text)
    (hv : encodeString text = some v) : Spelled v (text.map redactText) := by
  cases text with
  | none =>
    obtain rfl := Option.some.inj hv
    exact .null
  | some t =>
    have h0 := h t rfl
    exact .text (stringIs_encodeString h0 hv).1 (zero_notMem_redactText h0)

lemma spelled_literal {t : Bytes} (h : Plain t) : Spelled (literal t) (some t) :=
  .text (stringIs_plain h) fun h0 => absurd (h 0 h0).1 (by decide)

/-! ### UTF-8 -/

lemma wellFormed_plain {word : Bytes} (h : word.all (fun c => decide (c < 0x80)) = true) :
    WellFormed word := wellFormed_of_ascii fun c hc => of_decide_eq_true (List.all_eq_true.1 h c hc)

lemma wellFormed_literal {word : Bytes} (h : word.all (fun c => decide (c < 0x80)) = true) :
    WellFormed (literal word) := by
  have hquote : WellFormed [ch '"'] := wellFormed_plain (by decide)
  exact (hquote.append (wellFormed_plain h)).append hquote

lemma isDigit_of_mem_decimal {n : ℕ} {c : UInt8} (h : c ∈ decimal n) : isDigit c = true := by
  obtain ⟨d, hd, rfl⟩ := List.mem_map.1 h
  exact (toNat_ch_of_mem_toDigits hd).2

lemma wellFormed_decimal (n : ℕ) : WellFormed (decimal n) := wellFormed_of_ascii fun c hc => by
  have hle := (isDigit_iff.1 (isDigit_of_mem_decimal hc)).2
  rw [UInt8.lt_iff_toNat_lt]
  exact hle.trans_lt (by decide)

lemma wellFormed_flatMap_encodeByte (l : List Char) :
    WellFormed ((utf8 l).flatMap encodeByte) := by
  induction l with
  | nil => exact .nil
  | cons c l ih =>
    rw [utf8_cons, List.flatMap_append]
    refine WellFormed.append ?_ ih
    by_cases hc : c.toNat < 0x80
    · have hall : ∀ n : Fin 256, UInt8.ofFin n < 0x80 →
          ((encodeByte (UInt8.ofFin n)).all fun b => decide (b < 0x80)) = true := by
        decide +kernel
      have hlt : UInt8.ofNat c.toNat < 0x80 := by
        rw [UInt8.lt_iff_toNat_lt, UInt8.toNat_ofNat_of_lt' (hc.trans (by decide))]
        exact hc
      rw [utf8_ascii hc, List.flatMap_singleton]
      exact wellFormed_plain (hall (UInt8.ofNat c.toNat).toFin hlt)
    · have hsame : ∀ b ∈ String.utf8EncodeChar c, encodeByte b = [b] := by
        intro b hb
        have hle := le_of_mem_utf8 (Nat.not_lt.1 hc) hb
        have hall : ∀ n : Fin 256, 0x80 ≤ UInt8.ofFin n →
            encodeByte (UInt8.ofFin n) = [UInt8.ofFin n] := by
          decide +kernel
        exact hall b.toFin hle
      have hflat : (String.utf8EncodeChar c).flatMap encodeByte = String.utf8EncodeChar c := by
        rw [List.flatMap_congr hsame]
        exact List.flatMap_singleton' _
      rw [hflat]
      exact ⟨[c], by rw [utf8_cons, utf8_nil, List.append_nil]⟩

/-- What the encoder puts out is UTF-8. -/
lemma wellFormed_encodeString {text : Option Bytes} {v : Bytes} (hv : encodeString text = some v) :
    WellFormed v := by
  cases text with
  | none =>
    obtain rfl := Option.some.inj hv
    exact wellFormed_plain (by decide)
  | some t =>
    unfold encodeString at hv
    obtain ⟨hutf8, hout⟩ := Option.ite_none_right_eq_some.1 hv
    obtain rfl := Option.some.inj hout
    obtain ⟨l, hl⟩ := (jsonUtf8_iff _).1 hutf8
    have hquote : WellFormed [ch '"'] := wellFormed_plain (by decide)
    rw [hl]
    exact (hquote.append (wellFormed_flatMap_encodeByte l)).append hquote

/-! ### Fields -/

/-- What stands behind a value: a comma, or the brace that closes the object. -/
def Stops (rest : Bytes) : Prop := cur rest = ch ',' ∨ cur rest = ch '}'

instance (rest : Bytes) : Decidable (Stops rest) := inferInstanceAs (Decidable (_ ∨ _))

lemma Stops.exists_cons {rest : Bytes} (h : Stops rest) :
    ∃ c t, rest = c :: t ∧ (c = ch ',' ∨ c = ch '}') := by
  cases rest with
  | nil => exact absurd h (by decide)
  | cons c t => exact ⟨c, t, rfl, h⟩

lemma Stops.delimiter {rest : Bytes} (h : Stops rest) : recordDelimiter rest = true := by
  obtain ⟨c, t, rfl, hc⟩ := h.exists_cons
  have hlead : Lead (c :: t) := lead_cons t (by rcases hc with rfl | rfl <;> decide)
  rw [recordDelimiter, jsonSpace_eq_self hlead, Bool.or_eq_true, decide_eq_true_eq,
    decide_eq_true_eq]
  exact h

/-- **The reader finds a field** whose value stands for `x`. -/
def Field (text key : Bytes) (x : Option Bytes) : Prop := ∃ v rest,
  jsonUniqueField text key = some (v ++ rest) ∧ Spelled v x ∧ Stops rest

/-- A member is found: the pointer to its value, with what stands behind it. -/
def Found (text : Bytes) (m : Bytes × Bytes) : Prop := ∃ rest,
  jsonUniqueField text m.1 = some (m.2 ++ rest) ∧ Stops rest ∧ (m.2 ++ rest).length ≤ text.length

lemma Found.field {text key v : Bytes} {x : Option Bytes} (h : Found text (key, v))
    (hv : Spelled v x) : Field text key x := by
  obtain ⟨rest, hfind, hrest, -⟩ := h
  exact ⟨v, rest, hfind, hv, hrest⟩

/-- Keys of ASCII that are short and written as they are. -/
def Keys (keys : List Bytes) : Prop := keys.Nodup ∧ ∀ key ∈ keys,
  Plain key ∧ key ≠ [] ∧ key.length < 128 ∧ key.all (fun c => decide (c < 0x80)) = true

instance (keys : List Bytes) : Decidable (Keys keys) := inferInstanceAs (Decidable (_ ∧ _))

section Members

variable {ms : List (Bytes × Bytes)} {q : Bytes} (hkeys : Keys (ms.map Prod.fst))
  (hvalues : ∀ m ∈ ms, Value m.2) (hsize : (objectText ms ++ q).length ≤ sizeMax)

include hkeys hvalues

lemma Keys.fields : Fields ms := fun m hm =>
  ⟨(hkeys.2 m.1 (List.mem_map_of_mem hm)).1, hvalues m hm⟩

omit hvalues in
lemma Keys.wellFormed (h : ∀ m ∈ ms, WellFormed m.2) : WellFormed (objectText ms) := by
  refine WellFormed.objectText fun m hm => ⟨wellFormed_plain ?_, h m hm⟩
  exact (hkeys.2 m.1 (List.mem_map_of_mem hm)).2.2.2

include hsize

/-- **Every member is found.** -/
lemma Keys.found : ∀ m ∈ ms, Found (objectText ms ++ q) m := by
  intro m hm
  obtain ⟨-, hne, hlen, -⟩ := hkeys.2 m.1 (List.mem_map_of_mem hm)
  exact jsonUniqueField_objectText (hkeys.fields hvalues) hkeys.1 hm hne hlen hsize

end Members

/-! ### The members of a record -/

/-- The texts that a record is put together of, as they are encoded. -/
structure Parts where
  operationId : Bytes
  operation : Bytes
  created : Bytes
  updated : Bytes
  planDigest : Bytes
  status : Bytes
  phase : Bytes
  name : Bytes
  arch : Bytes
  oldVersion : Bytes
  newVersion : Bytes
  source : Bytes
  signer : Bytes
  inputPath : Bytes
  blake2b : Bytes
  artifactPath : Bytes
  relativePath : Bytes
  artifactState : Bytes
  completedPhases : List Bytes
  failedPhase : Bytes

namespace Parts

variable (p : Parts)

def package : List (Bytes × Bytes) :=
  [(str "name", p.name), (str "arch", p.arch), (str "oldVersion", p.oldVersion),
    (str "newVersion", p.newVersion)]

def input : List (Bytes × Bytes) := [(str "path", p.inputPath), (str "blake2b256", p.blake2b)]

def artifact : List (Bytes × Bytes) :=
  [(str "role", literal (str "recovery-input")), (str "path", p.artifactPath),
    (str "relativePath", p.relativePath), (str "blake2b256", p.blake2b),
    (str "state", p.artifactState)]

/-- The members of the record, with what it says of the external state and of the exit code. -/
def members (external exit : Bytes) : List (Bytes × Bytes) :=
  [(str "schema", literal (str "wpm.recovery.v1")), (str "operationId", p.operationId),
    (str "operation", p.operation), (str "created", p.created), (str "updated", p.updated),
    (str "planDigest", p.planDigest), (str "status", p.status), (str "phase", p.phase),
    (str "package", objectText p.package), (str "source", p.source), (str "signer", p.signer),
    (str "validation", literal (str "validated-before-approval")),
    (str "input", objectText p.input), (str "externalStateMayHaveChanged", external),
    (str "scriptExitCode", exit), (str "retryEligible", str "false"),
    (str "safeActions", arrayText [literal (str "inspect")]),
    (str "controlledArtifacts", arrayText [objectText p.artifact]),
    (str "completedPhases", arrayText p.completedPhases), (str "failedPhase", p.failedPhase)]

lemma keys_package : Keys (p.package.map Prod.fst) := by
  change Keys [str "name", str "arch", str "oldVersion", str "newVersion"]
  decide

lemma keys_input : Keys (p.input.map Prod.fst) := by
  change Keys [str "path", str "blake2b256"]
  decide

lemma keys_artifact : Keys (p.artifact.map Prod.fst) := by
  change Keys [str "role", str "path", str "relativePath", str "blake2b256", str "state"]
  decide

lemma keys_members (external exit : Bytes) : Keys ((p.members external exit).map Prod.fst) := by
  change Keys [str "schema", str "operationId", str "operation", str "created", str "updated",
    str "planDigest", str "status", str "phase", str "package", str "source", str "signer",
    str "validation", str "input", str "externalStateMayHaveChanged", str "scriptExitCode",
    str "retryEligible", str "safeActions", str "controlledArtifacts", str "completedPhases",
    str "failedPhase"]
  decide

end Parts

/-! ### The document of a record -/

namespace Record

def externalText (r : Record) : Bytes := if r.external then str "true" else str "false"

def exitText (r : Record) : Bytes := match r.scriptExitCode with
  | some code => decimal code
  | none => str "null"

/-- The parts are the encodings of the texts of the record. -/
structure Encoded (r : Record) (p : Parts) : Prop where
  operationId : encodeString (some r.operationId) = some p.operationId
  operation : encodeString (some r.operation.text) = some p.operation
  created : encodeString (some r.created) = some p.created
  updated : encodeString (some r.updated) = some p.updated
  planDigest : encodeString (some r.planDigest) = some p.planDigest
  status : encodeString (some r.status.text) = some p.status
  phase : encodeString (some r.phase.text) = some p.phase
  name : encodeString (some r.name) = some p.name
  arch : encodeString (some r.arch) = some p.arch
  oldVersion : encodeString r.oldVersion = some p.oldVersion
  newVersion : encodeString r.newVersion = some p.newVersion
  source : encodeString (some r.source) = some p.source
  signer : encodeString r.signer = some p.signer
  inputPath : encodeString (some r.inputPath) = some p.inputPath
  blake2b : encodeString (some r.blake2b) = some p.blake2b
  artifactPath : encodeString (some r.artifactPath) = some p.artifactPath
  relativePath : encodeString (some (r.operationId ++ str "/input.zip")) = some p.relativePath
  artifactState : encodeString (some r.artifactState.text) = some p.artifactState
  completedPhases : ∀ v ∈ p.completedPhases, ∃ phase : Phase,
    encodeString (some phase.text) = some v
  failedPhase : encodeString (r.failedPhase.map Phase.text) = some p.failedPhase

lemma exists_of_mapM {l : List Phase} {vs : List Bytes}
    (h : (l.mapM fun p => encodeString (some p.text)) = some vs) :
    ∀ v ∈ vs, ∃ phase : Phase, encodeString (some phase.text) = some v := by
  induction l generalizing vs with
  | nil =>
    rw [List.mapM_nil] at h
    obtain rfl : [] = vs := Option.some.inj h
    exact List.forall_mem_nil _
  | cons phase l ih =>
    rw [List.mapM_cons] at h
    obtain ⟨w, hw, h⟩ := option_bind_eq_some.1 h
    obtain ⟨ws, hws, h⟩ := option_bind_eq_some.1 h
    obtain rfl : w :: ws = vs := Option.some.inj h
    exact List.forall_mem_cons.2 ⟨⟨phase, hw⟩, ih hws⟩

/-- **The document of a record** is the object of its parts. -/
lemma document_eq_some {r : Record} {text : Bytes} (h : r.document = some text) :
    ∃ p, r.Encoded p ∧ text = objectText (p.members r.externalText r.exitText) ++ str "\n" := by
  unfold document at h
  obtain ⟨operationId, h1, h⟩ := option_bind_eq_some.1 h
  obtain ⟨operation, h2, h⟩ := option_bind_eq_some.1 h
  obtain ⟨created, h3, h⟩ := option_bind_eq_some.1 h
  obtain ⟨updated, h4, h⟩ := option_bind_eq_some.1 h
  obtain ⟨planDigest, h5, h⟩ := option_bind_eq_some.1 h
  obtain ⟨status, h6, h⟩ := option_bind_eq_some.1 h
  obtain ⟨phase, h7, h⟩ := option_bind_eq_some.1 h
  obtain ⟨name, h8, h⟩ := option_bind_eq_some.1 h
  obtain ⟨arch, h9, h⟩ := option_bind_eq_some.1 h
  obtain ⟨oldVersion, h10, h⟩ := option_bind_eq_some.1 h
  obtain ⟨newVersion, h11, h⟩ := option_bind_eq_some.1 h
  obtain ⟨source, h12, h⟩ := option_bind_eq_some.1 h
  obtain ⟨signer, h13, h⟩ := option_bind_eq_some.1 h
  obtain ⟨inputPath, h14, h⟩ := option_bind_eq_some.1 h
  obtain ⟨blake2b, h15, h⟩ := option_bind_eq_some.1 h
  obtain ⟨artifactPath, h16, h⟩ := option_bind_eq_some.1 h
  obtain ⟨relativePath, h17, h⟩ := option_bind_eq_some.1 h
  obtain ⟨artifactState, h18, h⟩ := option_bind_eq_some.1 h
  obtain ⟨completedPhases, h19, h⟩ := option_bind_eq_some.1 h
  obtain ⟨failedPhase, h20, h⟩ := option_bind_eq_some.1 h
  refine ⟨⟨operationId, operation, created, updated, planDigest, status, phase, name, arch,
    oldVersion, newVersion, source, signer, inputPath, blake2b, artifactPath, relativePath,
    artifactState, completedPhases, failedPhase⟩, ⟨h1, h2, h3, h4, h5, h6, h7, h8, h9, h10, h11,
    h12, h13, h14, h15, h16, h17, h18, exists_of_mapM h19, h20⟩, ?_⟩
  rw [← Option.some.inj h]
  simp only [jsonObject_eq, jsonArray_eq]
  rfl

/-- The texts of the record are C strings. -/
structure Terminates (r : Record) : Prop where
  operationId : 0 ∉ r.operationId
  created : 0 ∉ r.created
  updated : 0 ∉ r.updated
  planDigest : 0 ∉ r.planDigest
  name : 0 ∉ r.name
  arch : 0 ∉ r.arch
  oldVersion : Terminated r.oldVersion
  newVersion : Terminated r.newVersion
  source : 0 ∉ r.source
  signer : Terminated r.signer
  inputPath : 0 ∉ r.inputPath
  blake2b : 0 ∉ r.blake2b
  artifactPath : 0 ∉ r.artifactPath

variable {r : Record} {p : Parts}

/-- The words of the source are C strings, and the redaction leaves them as they are. -/
lemma words (r : Record) : (0 ∉ r.operation.text ∧ redactText r.operation.text = r.operation.text) ∧
    (0 ∉ r.status.text ∧ redactText r.status.text = r.status.text) ∧
    (0 ∉ r.phase.text ∧ redactText r.phase.text = r.phase.text) ∧
    (0 ∉ r.artifactState.text ∧ redactText r.artifactState.text = r.artifactState.text) := by
  refine ⟨?_, ?_, ?_, ?_⟩
  · cases r.operation <;> decide
  · cases r.status <;> decide
  · cases r.phase <;> decide
  · cases r.artifactState <;> decide

/-- What the parts stand for. -/
structure Spelling (r : Record) (p : Parts) : Prop where
  operationId : Spelled p.operationId (some (redactText r.operationId))
  operation : Spelled p.operation (some r.operation.text)
  created : Spelled p.created (some (redactText r.created))
  updated : Spelled p.updated (some (redactText r.updated))
  planDigest : Spelled p.planDigest (some (redactText r.planDigest))
  status : Spelled p.status (some r.status.text)
  phase : Spelled p.phase (some r.phase.text)
  name : Spelled p.name (some (redactText r.name))
  arch : Spelled p.arch (some (redactText r.arch))
  oldVersion : Spelled p.oldVersion (r.oldVersion.map redactText)
  newVersion : Spelled p.newVersion (r.newVersion.map redactText)
  source : Spelled p.source (some (redactText r.source))
  signer : Spelled p.signer (r.signer.map redactText)
  inputPath : Spelled p.inputPath (some (redactText r.inputPath))
  blake2b : Spelled p.blake2b (some (redactText r.blake2b))
  artifactPath : Spelled p.artifactPath (some (redactText r.artifactPath))
  relativePath : Spelled p.relativePath (some (redactText (r.operationId ++ str "/input.zip")))
  artifactState : Spelled p.artifactState (some r.artifactState.text)
  completedPhases : ∀ v ∈ p.completedPhases, Value v
  failedPhase : Spelled p.failedPhase (r.failedPhase.map Phase.text)

lemma terminated_some {t : Bytes} (h : 0 ∉ t) : Terminated (some t) := by
  intro t' ht
  obtain rfl := Option.some.inj ht
  exact h

lemma text_spelled {text v : Bytes} (h : 0 ∉ text) (hv : encodeString (some text) = some v) :
    Spelled v (some (redactText text)) := spelled_encodeString (terminated_some h) hv

lemma word_spelled {word v : Bytes} (h : 0 ∉ word ∧ redactText word = word)
    (hv : encodeString (some word) = some v) : Spelled v (some word) := by
  have hspelled := text_spelled h.1 hv
  rwa [h.2] at hspelled

lemma phase_words (phase : Phase) : 0 ∉ phase.text ∧ redactText phase.text = phase.text := by
  cases phase <;> decide

lemma Encoded.spelling (he : r.Encoded p) (h : r.Terminates) : r.Spelling p := by
  obtain ⟨hoperation, hstatus, hphase, hstate⟩ := r.words
  refine ⟨text_spelled h.operationId he.operationId, word_spelled hoperation he.operation,
    text_spelled h.created he.created, text_spelled h.updated he.updated,
    text_spelled h.planDigest he.planDigest, word_spelled hstatus he.status,
    word_spelled hphase he.phase, text_spelled h.name he.name, text_spelled h.arch he.arch,
    spelled_encodeString h.oldVersion he.oldVersion,
    spelled_encodeString h.newVersion he.newVersion, text_spelled h.source he.source,
    spelled_encodeString h.signer he.signer, text_spelled h.inputPath he.inputPath,
    text_spelled h.blake2b he.blake2b, text_spelled h.artifactPath he.artifactPath,
    text_spelled ?_ he.relativePath, word_spelled hstate he.artifactState, fun v hv => ?_, ?_⟩
  · have hzero : (0 : UInt8) ∉ str "/input.zip" := by decide
    exact fun hmem => (List.mem_append.1 hmem).elim h.operationId hzero
  · obtain ⟨phase, hphase⟩ := he.completedPhases v hv
    exact (word_spelled (phase_words phase) hphase).value
  · cases hfailed : r.failedPhase with
    | none =>
      have hnull := he.failedPhase
      rw [hfailed] at hnull
      rw [← Option.some.inj hnull]
      exact .null
    | some phase =>
      have hword := he.failedPhase
      rw [hfailed] at hword
      exact word_spelled (phase_words phase) hword

lemma value_externalText (r : Record) : Value r.externalText := by
  rw [externalText]
  split_ifs
  · exact .literal (.inl rfl)
  · exact .literal (.inr (.inl rfl))

lemma isNumber_decimal (n : ℕ) : IsNumber (decimal n) :=
  ⟨[], decimal n, [], [], .inl rfl, integer_toDigits n, .none, .none, by simp⟩

lemma value_exitText (r : Record) : Value r.exitText := by
  rw [exitText]
  cases r.scriptExitCode with
  | none => exact .literal (.inr (.inr rfl))
  | some code => exact .number (isNumber_decimal code)

namespace Spelling

variable (h : r.Spelling p)
include h

lemma package : ∀ m ∈ p.package, Value m.2 := by
  simp only [Parts.package, List.forall_mem_cons]
  exact ⟨h.name.value, h.arch.value, h.oldVersion.value, h.newVersion.value, List.forall_mem_nil _⟩

lemma input : ∀ m ∈ p.input, Value m.2 := by
  simp only [Parts.input, List.forall_mem_cons]
  exact ⟨h.inputPath.value, h.blake2b.value, List.forall_mem_nil _⟩

lemma artifact : ∀ m ∈ p.artifact, Value m.2 := by
  simp only [Parts.artifact, List.forall_mem_cons]
  exact ⟨(spelled_literal (by decide)).value, h.artifactPath.value, h.relativePath.value,
    h.blake2b.value, h.artifactState.value, List.forall_mem_nil _⟩

lemma members : ∀ m ∈ p.members r.externalText r.exitText, Value m.2 := by
  have hactions : Value (arrayText [literal (str "inspect")]) := value_arrayText fun v hv =>
    List.mem_singleton.1 hv ▸ (spelled_literal (by decide)).value
  have hartifacts : Value (arrayText [objectText p.artifact]) := value_arrayText fun v hv =>
    List.mem_singleton.1 hv ▸ value_objectText (p.keys_artifact.fields h.artifact)
  simp only [Parts.members, List.forall_mem_cons]
  exact ⟨(spelled_literal (by decide)).value, h.operationId.value, h.operation.value,
    h.created.value, h.updated.value, h.planDigest.value, h.status.value, h.phase.value,
    value_objectText (p.keys_package.fields h.package), h.source.value, h.signer.value,
    (spelled_literal (by decide)).value, value_objectText (p.keys_input.fields h.input),
    r.value_externalText, r.value_exitText, .literal (.inr (.inl rfl)), hactions, hartifacts,
    value_arrayText h.completedPhases, h.failedPhase.value, List.forall_mem_nil _⟩

end Spelling

/-- **The record is UTF-8.** -/
lemma Encoded.wellFormed (he : r.Encoded p) :
    WellFormed (objectText (p.members r.externalText r.exitText)) := by
  have hexternal : WellFormed r.externalText := by
    rw [externalText]
    split_ifs <;> exact wellFormed_plain (by decide)
  have hexit : WellFormed r.exitText := by
    rw [exitText]
    cases r.scriptExitCode with
    | none => exact wellFormed_plain (by decide)
    | some code => exact wellFormed_decimal code
  have hphases : WellFormed (arrayText p.completedPhases) := WellFormed.arrayText fun v hv => by
    obtain ⟨phase, hphase⟩ := he.completedPhases v hv
    exact wellFormed_encodeString hphase
  have hactions : WellFormed (arrayText [literal (str "inspect")]) :=
    WellFormed.arrayText fun v hv => List.mem_singleton.1 hv ▸ wellFormed_literal (by decide)
  have hpackage : WellFormed (objectText p.package) := p.keys_package.wellFormed (by
    simp only [Parts.package, List.forall_mem_cons]
    exact ⟨wellFormed_encodeString he.name, wellFormed_encodeString he.arch,
      wellFormed_encodeString he.oldVersion, wellFormed_encodeString he.newVersion,
      List.forall_mem_nil _⟩)
  have hinput : WellFormed (objectText p.input) := p.keys_input.wellFormed (by
    simp only [Parts.input, List.forall_mem_cons]
    exact ⟨wellFormed_encodeString he.inputPath, wellFormed_encodeString he.blake2b,
      List.forall_mem_nil _⟩)
  have hartifact : WellFormed (objectText p.artifact) := p.keys_artifact.wellFormed (by
    simp only [Parts.artifact, List.forall_mem_cons]
    exact ⟨wellFormed_literal (by decide), wellFormed_encodeString he.artifactPath,
      wellFormed_encodeString he.relativePath, wellFormed_encodeString he.blake2b,
      wellFormed_encodeString he.artifactState, List.forall_mem_nil _⟩)
  have hartifacts : WellFormed (arrayText [objectText p.artifact]) :=
    WellFormed.arrayText fun v hv => List.mem_singleton.1 hv ▸ hartifact
  refine (p.keys_members _ _).wellFormed ?_
  simp only [Parts.members, List.forall_mem_cons]
  exact ⟨wellFormed_literal (by decide), wellFormed_encodeString he.operationId,
    wellFormed_encodeString he.operation, wellFormed_encodeString he.created,
    wellFormed_encodeString he.updated, wellFormed_encodeString he.planDigest,
    wellFormed_encodeString he.status, wellFormed_encodeString he.phase, hpackage,
    wellFormed_encodeString he.source, wellFormed_encodeString he.signer,
    wellFormed_literal (by decide), hinput, hexternal, hexit, wellFormed_plain (by decide),
    hactions, hartifacts, hphases, wellFormed_encodeString he.failedPhase, List.forall_mem_nil _⟩

end Record

end Wpm.Operation
