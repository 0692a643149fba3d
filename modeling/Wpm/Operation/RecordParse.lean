import Wpm.JsonOutput
import Wpm.JsonRoot
import Wpm.Repository.Catalog

/-!
Reading a recovery record back: `record_parse` and what it calls.

The buffers of a `recovery_identity` are filled one after the other. A read that fails leaves behind
what was written until then, so that the record is a state that also a failure changes.
-/

namespace Wpm.Operation

open Wpm.Lib.CString Wpm.JsonInput
open Wpm.Repository (overwriteString semverParse knownArch)
open Wpm.Archive (pathSize)

/-- A `recovery_identity`. The statuses that are pointers to literals are empty when they are null. -/
structure RecoveryIdentity where
  id : Bytes
  operation : Bytes
  created : Bytes
  updated : Bytes
  plan : Bytes
  status : Bytes
  phase : Bytes
  name : Bytes
  arch : Bytes
  oldVersion : Bytes
  newVersion : Bytes
  source : Bytes
  input : Bytes
  fingerprint : Bytes
  signer : Bytes
  scriptExit : ℕ
  external : Bool
  exitKnown : Bool
  inputStatus : Bytes
  retainedRelative : Bytes
  retainedState : Bytes
  retainedPath : Bytes
  retainedStatus : Bytes
  retainedKnown : Bool
  inventoryKnown : Bool
  deriving DecidableEq

/-- A `recovery_identity` of zero bytes. -/
def RecoveryIdentity.zero : RecoveryIdentity where
  id := List.replicate 33 0
  operation := List.replicate 16 0
  created := List.replicate 32 0
  updated := List.replicate 32 0
  plan := List.replicate 65 0
  status := List.replicate 16 0
  phase := List.replicate 32 0
  name := List.replicate 128 0
  arch := List.replicate 16 0
  oldVersion := List.replicate 64 0
  newVersion := List.replicate 64 0
  source := List.replicate pathSize 0
  input := List.replicate pathSize 0
  fingerprint := List.replicate 65 0
  signer := List.replicate 65 0
  scriptExit := 0
  external := false
  exitKnown := false
  inputStatus := []
  retainedRelative := List.replicate 256 0
  retainedState := List.replicate 16 0
  retainedPath := List.replicate pathSize 0
  retainedStatus := []
  retainedKnown := false
  inventoryKnown := false

/-! ### The values of a record -/

/-- A hexadecimal digit as the program writes it. -/
def isLowerHex (c : UInt8) : Bool := isDigit c || (ch 'a' ≤ c && c ≤ ch 'f')

/-- `wpm_recovery_id_valid`. -/
def recoveryIdValid (id : Bytes) : Bool := id.length = 32 && id.all isLowerHex

/-- `record_hex`. -/
def recordHex (text : Bytes) : Bool := text.length = 64 && text.all isLowerHex

/-- `record_delimiter`. -/
def recordDelimiter (p : Bytes) : Bool := cur (jsonSpace p) = ch ',' || cur (jsonSpace p) = ch '}'

/-- A literal and what may stand behind a value. -/
def recordLiteral (word p : Bytes) : Bool := word.isPrefixOf p && recordDelimiter (p.drop word.length)

/-- `record_string`: whether the field can be read, and the buffer after it. -/
def recordString (text key : Bytes) (size : ℕ) (nullable : Bool) (output : Bytes) : Bool × Bytes :=
  match jsonUniqueField text key with
  | none => (false, output)
  | some p =>
    if nullable && recordLiteral (str "null") p then (true, output.set 0 0)
    else
      let buffer := (overwriteString size output p).1
      match readString true size p with
      | none => (false, buffer)
      | some (_, rest) => (cur buffer ≠ 0 && recordDelimiter rest, buffer)

/-- A `record_string` into a buffer that only the caller sees. -/
def recordValue (text key : Bytes) (size : ℕ) (nullable : Bool) : Option Bytes :=
  let r := recordString text key size nullable (List.replicate size 0)
  if r.1 then some (cstr r.2) else none

/-- `record_bool`. -/
def recordBool (text key : Bytes) : Option Bool := do
  let p ← jsonUniqueField text key
  if recordLiteral (str "true") p then some true
  else if recordLiteral (str "false") p then some false
  else none

/-- The places in a time where no digit stands. -/
def timeSeparators : List (ℕ × UInt8) :=
  [(4, ch '-'), (7, ch '-'), (10, ch 'T'), (13, ch ':'), (16, ch ':'), (19, ch '.'), (23, ch 'Z')]

/-- The days of a month. -/
def daysOf (year month : ℕ) : ℕ :=
  if month = 2 then if year % 4 = 0 ∧ (year % 100 ≠ 0 ∨ year % 400 = 0) then 29 else 28
  else if month ∈ [4, 6, 9, 11] then 30 else 31

/-- `record_time`. -/
def recordTime (text : Bytes) : Bool :=
  let number (place digits : ℕ) := decValue ((text.drop place).take digits)
  text.length = 24 &&
    (text.zipIdx.all fun p => match timeSeparators.lookup p.2 with
      | some separator => p.1 = separator
      | none => isDigit p.1) &&
    number 0 4 ≠ 0 && (1 ≤ number 5 2 && number 5 2 ≤ 12) && 1 ≤ number 8 2 && number 11 2 ≤ 23 &&
    number 14 2 ≤ 59 && number 17 2 ≤ 59 && number 8 2 ≤ daysOf (number 0 4) (number 5 2)

/-- `wpm_recovery_filters_valid`. -/
def recoveryFiltersValid (name arch : Option Bytes) : Bool :=
  (match name with
    | some name => name ≠ [] && name.length < 128 && name.all fun c => 32 ≤ c && c ≠ 127
    | none => true) &&
  (match arch with
    | some arch => knownArch arch
    | none => true)

/-! ### The record -/

/-- A function that fills a record, and leaves it as it is where it returns 0. -/
abbrev Filling := ExceptT Unit (StateM RecoveryIdentity)

namespace Filling

/-- A condition without which 0 is returned. -/
def require (condition : Bool) : Filling Unit := if condition then pure () else throw ()

/-- A value without which 0 is returned. -/
def value {α : Type} : Option α → Filling α
  | some a => pure a
  | none => throw ()

/-- A `record_string` into one of the buffers. -/
def string (text key : Bytes) (size : ℕ) (nullable : Bool) (buffer : RecoveryIdentity → Bytes)
    (set : RecoveryIdentity → Bytes → RecoveryIdentity) : Filling Unit := do
  let r := recordString text key size nullable (buffer (← get))
  modify fun record => set record r.2
  require r.1

end Filling

open Filling (require value string)

/-- An artifact that is the retained input. -/
def recordRetained (p : Bytes) : Filling Unit := do
  require !(← get).retainedKnown
  let _ ← value (recordValue p (str "path") pathSize false)
  string p (str "relativePath") 256 false (·.retainedRelative) fun r b => { r with retainedRelative := b }
  let digest ← value (recordValue p (str "blake2b256") 65 false)
  require (digest = cstr (← get).fingerprint)
  string p (str "state") 16 false (·.retainedState) fun r b => { r with retainedState := b }
  require (cstr (← get).retainedState ∈ [str "planned", str "incomplete", str "retained"])
  modify fun r => { r with retainedKnown := true, retainedStatus := str "not-checked" }

/-- The loop of `record_artifacts`, with room for `fuel` more artifacts: the pointer at its end. -/
def recordArtifactsFrom : ℕ → Bytes → Filling Bytes
  | fuel, p => do
    if cur p = ch ']' then return p
    require (cur p = ch '{')
    match fuel with
    | 0 => throw ()
    | fuel + 1 =>
      let role ← value (recordValue p (str "role") 32 false)
      if role = str "recovery-input" then recordRetained p
      else modify fun r => { r with inventoryKnown := false }
      require (valueEnd p).2
      let p := jsonSpace (valueEnd p).1
      if cur p ≠ ch ',' then return p
      recordArtifactsFrom fuel (jsonSpace p.tail)

/-- `record_artifacts`: no more than sixteen. -/
def recordArtifacts (artifacts : Bytes) : Filling Unit := do
  modify fun r => { r with inventoryKnown := true, retainedStatus := str "not-recorded" }
  let p ← recordArtifactsFrom 16 (jsonSpace artifacts.tail)
  require (cur p = ch ']' && recordDelimiter p.tail)

/-- The exit code of the script: `null`, or a number of 32 bits. -/
def recordExit (exit : Bytes) : Filling Unit := do
  if recordLiteral (str "null") exit then modify fun r => { r with exitKnown := false }
  else
    require (isDigit (cur exit))
    let digits := exit.takeWhile isDigit
    modify fun r => { r with scriptExit := min (decValue digits) 0xffffffff }
    require (decValue digits ≤ 0xffffffff && recordDelimiter (exit.drop digits.length))
    modify fun r => { r with exitKnown := true }

/-- The only action that is safe is to inspect. -/
def recordActions (actions : Bytes) : Option Unit := do
  let (action, p) ← readString true 16 (jsonSpace actions.tail)
  let p := jsonSpace p
  guard (action = str "inspect" ∧ cur p = ch ']' ∧ recordDelimiter p.tail)

/-- The buffers of a record in the order in which they are filled. -/
def recordStrings (text package input : Bytes) (id : Bytes) : Filling Unit := do
  require (recordValue text (str "schema") 32 false = some (str "wpm.recovery.v1"))
  string text (str "operationId") 33 false (·.id) fun r b => { r with id := b }
  require (cstr (← get).id = id)
  string text (str "operation") 16 false (·.operation) fun r b => { r with operation := b }
  string text (str "created") 32 false (·.created) fun r b => { r with created := b }
  string text (str "updated") 32 false (·.updated) fun r b => { r with updated := b }
  string text (str "planDigest") 65 false (·.plan) fun r b => { r with plan := b }
  string text (str "status") 16 false (·.status) fun r b => { r with status := b }
  string text (str "phase") 32 false (·.phase) fun r b => { r with phase := b }
  string package (str "name") 128 false (·.name) fun r b => { r with name := b }
  string package (str "arch") 16 false (·.arch) fun r b => { r with arch := b }
  string package (str "oldVersion") 64 true (·.oldVersion) fun r b => { r with oldVersion := b }
  string package (str "newVersion") 64 true (·.newVersion) fun r b => { r with newVersion := b }
  string text (str "source") pathSize false (·.source) fun r b => { r with source := b }
  string text (str "signer") 65 true (·.signer) fun r b => { r with signer := b }
  require (recordValue text (str "validation") 48 false = some (str "validated-before-approval"))
  string input (str "path") pathSize false (·.input) fun r b => { r with input := b }
  string input (str "blake2b256") 65 false (·.fingerprint) fun r b => { r with fingerprint := b }

/-- What has to hold between the fields of a record. -/
def RecoveryIdentity.consistent (r : RecoveryIdentity) (failedPhase : Bytes) : Bool :=
  (cstr r.operation ∈ [str "install", str "remove", str "upgrade", str "self-upgrade"]) &&
    (cstr r.oldVersion = [] || (semverParse (cstr r.oldVersion)).isSome) &&
    (cstr r.newVersion = [] || (semverParse (cstr r.newVersion)).isSome) &&
    decide (cstr r.operation = str "remove" ↔ cstr r.newVersion = []) &&
    failedPhase == (if cstr r.status = str "failed" then cstr r.phase else [])

/-- What the values of a record look like. -/
def RecoveryIdentity.wellFormed (r : RecoveryIdentity) : Bool :=
  recordHex (cstr r.plan) && recordHex (cstr r.fingerprint) &&
    (cstr r.signer = [] || cstr r.signer = str "unsigned" || recordHex (cstr r.signer)) &&
    recordTime (cstr r.created) && recordTime (cstr r.updated) &&
    compare (cstr r.created) (cstr r.updated) ≠ .gt &&
    recoveryFiltersValid (some (cstr r.name)) (some (cstr r.arch))

/-- `record_parse`. -/
def recordParse (text id : Bytes) : Filling Unit := do
  require (documentValid text && JsonOutput.jsonUtf8 text)
  let package ← value (jsonUniqueField text (str "package"))
  let input ← value (jsonUniqueField text (str "input"))
  let exit ← value (jsonUniqueField text (str "scriptExitCode"))
  require (cur package = ch '{' && cur input = ch '{')
  recordStrings text package input id
  let external ← value (recordBool text (str "externalStateMayHaveChanged"))
  modify fun r => { r with external }
  require (recordBool text (str "retryEligible") = some false)
  require (← get).wellFormed
  let actions ← value (jsonUniqueField text (str "safeActions"))
  let artifacts ← value (jsonUniqueField text (str "controlledArtifacts"))
  let history ← value (jsonUniqueField text (str "completedPhases"))
  require (cur actions = ch '[' && cur artifacts = ch '[' &&
    (cur history = ch '[' || recordLiteral (str "null") history))
  let failedPhase ← value (recordValue text (str "failedPhase") 32 true)
  require ((← get).consistent failedPhase)
  value (recordActions actions)
  require (cstr (← get).status ∈ [str "completed", str "in-progress", str "failed", str "pending"])
  recordExit exit
  modify fun r => { r with inputStatus := str "not-checked" }
  recordArtifacts artifacts

end Wpm.Operation
