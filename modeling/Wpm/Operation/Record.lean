import Wpm.JsonOutput

/-!
The words of `operation.c`: the actions and phases of a plan, what a plan item is approved for, and
the recovery record that `journal_write` publishes for it.

The actions, phases and statuses are string literals in the source; here each is an enumeration with
the text it stands for. An absent text is the `NULL` that is written as `null`.
-/

namespace Wpm.Operation

open Wpm.Lib.CString Wpm.JsonOutput

/-- The size of a path buffer, `PLAN_PATH`. -/
def planPath : ℕ := 4096

inductive Action
  | install | upgrade | remove | selfUpgrade
  deriving DecidableEq, Repr

def Action.text : Action → Bytes
  | .install => str "install"
  | .upgrade => str "upgrade"
  | .remove => str "remove"
  | .selfUpgrade => str "self-upgrade"

inductive Phase
  | retainInput | stage | extract | validate | script | retainArchive | removeRecord | audit
  | cleanup | handoff | completed
  deriving DecidableEq, Repr

def Phase.text : Phase → Bytes
  | .retainInput => str "retain-input"
  | .stage => str "stage"
  | .extract => str "extract"
  | .validate => str "validate"
  | .script => str "script"
  | .retainArchive => str "retain-archive"
  | .removeRecord => str "remove-record"
  | .audit => str "audit"
  | .cleanup => str "cleanup"
  | .handoff => str "handoff"
  | .completed => str "completed"

inductive Status
  | inProgress | failed | completed | pending
  deriving DecidableEq, Repr

def Status.text : Status → Bytes
  | .inProgress => str "in-progress"
  | .failed => str "failed"
  | .completed => str "completed"
  | .pending => str "pending"

/-- `retained_state`. -/
inductive Retained
  | planned | incomplete | retained
  deriving DecidableEq, Repr

def Retained.text : Retained → Bytes
  | .planned => str "planned"
  | .incomplete => str "incomplete"
  | .retained => str "retained"

/-- Every phase fits the buffers for a phase, which `phase_start` and `phase_finish` check. -/
lemma Phase.length_text_lt (p : Phase) : p.text ≠ [] ∧ p.text.length < 32 := by
  cases p <;> decide

lemma Action.text_injective : Function.Injective Action.text := by
  intro a b h
  cases a <;> cases b <;> first | rfl | exact absurd h (by decide)

lemma Phase.text_injective : Function.Injective Phase.text := by
  intro a b h
  cases a <;> cases b <;> first | rfl | exact absurd h (by decide)

/-- The identity of a file on its volume: `dwVolumeSerialNumber`, `nFileIndexHigh`,
`nFileIndexLow`. -/
structure FileId where
  volume : UInt32
  indexHigh : UInt32
  indexLow : UInt32
  deriving DecidableEq

/-- The bytes of a 32-bit word in memory. -/
def wordBytes (n : UInt32) : Bytes :=
  [n.toUInt8, (n >>> 8).toUInt8, (n >>> 16).toUInt8, (n >>> 24).toUInt8]

def FileId.bytes (f : FileId) : Bytes :=
  wordBytes f.volume ++ wordBytes f.indexHigh ++ wordBytes f.indexLow

/-- What `wpm_archive_inspect` finds out about an archive. -/
structure PackageInfo where
  name : Bytes
  version : Bytes
  arch : Bytes
  deriving DecidableEq

/-- **What is approved**: the fields of a `plan_item` that the plan digest covers. -/
structure Approved where
  action : Action
  archive : Bytes
  source : Bytes
  oldVersion : Bytes
  signingKey : Bytes
  identity : PackageInfo
  fingerprint : Bytes
  fileIdentity : FileId
  recoveryId : Bytes
  retained : Bytes
  deriving DecidableEq

/-- The fields of a recovery record. -/
structure Record where
  operationId : Bytes
  operation : Action
  created : Bytes
  updated : Bytes
  planDigest : Bytes
  status : Status
  phase : Phase
  name : Bytes
  arch : Bytes
  oldVersion : Option Bytes
  newVersion : Option Bytes
  source : Bytes
  signer : Option Bytes
  inputPath : Bytes
  blake2b : Bytes
  external : Bool
  scriptExitCode : Option ℕ
  artifactPath : Bytes
  artifactState : Retained
  completedPhases : List Phase
  failedPhase : Option Phase

/-! ### The document -/

/-- The digits of `%lu`. -/
def decimal (n : ℕ) : Bytes := (Nat.toDigits 10 n).map ch

/-- A comma-separated list. -/
def commaList : List Bytes → Bytes
  | [] => []
  | [x] => x
  | x :: y :: l => x ++ ch ',' :: commaList (y :: l)

/-- A member of an object, the value as it is written. -/
def member (m : Bytes × Bytes) : Bytes := ch '"' :: m.1 ++ ch '"' :: ch ':' :: m.2

def jsonObject (members : List (Bytes × Bytes)) : Bytes :=
  ch '\x7b' :: commaList (members.map member) ++ [ch '\x7d']

def jsonArray (elements : List Bytes) : Bytes := ch '[' :: commaList elements ++ [ch ']']

/-- A string that needs no encoding. -/
def literal (text : Bytes) : Bytes := ch '"' :: text ++ [ch '"']

/-- **The text of a record**, if every string of it can be encoded. -/
def Record.document (r : Record) : Option Bytes := do
  let operationId ← encodeString (some r.operationId)
  let operation ← encodeString (some r.operation.text)
  let created ← encodeString (some r.created)
  let updated ← encodeString (some r.updated)
  let planDigest ← encodeString (some r.planDigest)
  let status ← encodeString (some r.status.text)
  let phase ← encodeString (some r.phase.text)
  let name ← encodeString (some r.name)
  let arch ← encodeString (some r.arch)
  let oldVersion ← encodeString r.oldVersion
  let newVersion ← encodeString r.newVersion
  let source ← encodeString (some r.source)
  let signer ← encodeString r.signer
  let inputPath ← encodeString (some r.inputPath)
  let blake2b ← encodeString (some r.blake2b)
  let artifactPath ← encodeString (some r.artifactPath)
  let relativePath ← encodeString (some (r.operationId ++ str "/input.zip"))
  let artifactState ← encodeString (some r.artifactState.text)
  let completedPhases ← r.completedPhases.mapM fun p => encodeString (some p.text)
  let failedPhase ← encodeString (r.failedPhase.map Phase.text)
  some (jsonObject
    [(str "schema", literal (str "wpm.recovery.v1")), (str "operationId", operationId),
      (str "operation", operation), (str "created", created), (str "updated", updated),
      (str "planDigest", planDigest), (str "status", status), (str "phase", phase),
      (str "package", jsonObject [(str "name", name), (str "arch", arch),
        (str "oldVersion", oldVersion), (str "newVersion", newVersion)]),
      (str "source", source), (str "signer", signer),
      (str "validation", literal (str "validated-before-approval")),
      (str "input", jsonObject [(str "path", inputPath), (str "blake2b256", blake2b)]),
      (str "externalStateMayHaveChanged", if r.external then str "true" else str "false"),
      (str "scriptExitCode", match r.scriptExitCode with
        | some code => decimal code
        | none => str "null"),
      (str "retryEligible", str "false"), (str "safeActions", jsonArray [literal (str "inspect")]),
      (str "controlledArtifacts", jsonArray [jsonObject
        [(str "role", literal (str "recovery-input")), (str "path", artifactPath),
          (str "relativePath", relativePath), (str "blake2b256", blake2b),
          (str "state", artifactState)]]),
      (str "completedPhases", jsonArray completedPhases), (str "failedPhase", failedPhase)] ++
    str "\n")

end Wpm.Operation
