import Wpm.Operation.Record
import Wpm.Lib.Command

/-!
The state that a planned run works on, and the world around it.

`World` has the process-wide variables of `operation.c`, the files an archive path may name, and the
trace of what was done, newest event first. Other processes run at the same time: every call that
touches a file first lets them act (`advance`), and they may change any name and any file but the
contents of a file that this process holds open without write sharing. `Env` decides what nothing in
the model decides: the outcome of system calls, the digest of the controlled state, the clock, exit
codes, and what an archive says that is read while it may change.
-/

namespace Wpm.Operation

open Wpm.Lib.CString Wpm.Lib.Command

/-! ### Files and plan items -/

/-- The files that paths name: the file of a full path in lower case, and the bytes of a file. -/
structure Disk where
  names : Bytes → Option FileId
  contents : FileId → Bytes

/-- A `plan_item`. The handle `input` is on the file `fileIdentity` from the time the item is
collected; `scriptExit` is `script_exit` when `script_exit_known` is set. -/
structure PlanItem extends Approved where
  consumed : Bool
  created : Bytes
  journalStarted : Bool
  journalFailed : Bool
  external : Bool
  phase : Option Phase
  scriptExit : Option ℕ
  completed : List Phase
  retainedInput : Option FileId
  retainedState : Retained
  failed : Bool

/-- The item after `memset` and the fields that are filled in. -/
def PlanItem.collect (a : Approved) : PlanItem where
  toApproved := a
  consumed := false
  created := []
  journalStarted := false
  journalFailed := false
  external := false
  phase := none
  scriptExit := none
  completed := []
  retainedInput := none
  retainedState := .planned
  failed := false

/-! ### Events -/

/-- What a call of `wpm_operation_archive` asks for, and what it finds at the path. -/
structure Call where
  action : Action
  archive : Bytes
  source : Bytes
  oldVersion : Bytes
  fingerprint : Bytes
  fileIdentity : FileId

/-- The bytes that collecting an item reads: those `hash_file` hashed, and those that
`wpm_archive_inspect` and `wpm_archive_validate_readonly` found in the file at each moment. -/
structure Seen where
  hashed : Bytes
  inspected : ℕ → Bytes
  validated : ℕ → Bytes

/-- Where the bytes of an archive are read from: a path, or the held copy of an item. -/
inductive Source
  | path (p : Bytes)
  | retained (f : FileId)

/-- What the bytes of an archive are read for. -/
inductive Use
  | extract | metadata | store | installed
  deriving DecidableEq

inductive Event
  | collected (a : Approved) (allowUnsigned : Bool) (seen : Seen)
  | rechecked (i : ℕ) (bytes : Bytes)
  | approved (digest : Bytes)
  | consumed (i : ℕ) (call : Call) (digest : Bytes)
  | retained (i : ℕ) (f : FileId) (bytes : Bytes)
  | passed (i : ℕ)
  | published (i : ℕ) (r : Record)
  | started (i : Option ℕ) (handoff : Bool)
  | exited (code : ℕ)
  | read (use : Use) (source : Source) (bytes : Bytes)
  | stored (i : ℕ)
  | removed
  | failed (i : ℕ)
  | completed (i : ℕ) (digest : Bytes)

/-! ### The environment -/

/-- The calls of the source whose outcome the environment decides. -/
inductive Work
  | hashFile | readIdentity | openInput | answer
  | openRecoveryDirectory | noRecord | sameRecord | createRecord | writeRecord | publishRecord
  | closeRecord
  | createOperationDirectory | createInput | writeInput | flushInput | openRetained
  | openStore | createStored | writeStored | publishStored | closeStored | copyFile
  | createDirectories | removeDirectoryTree | archiveRead (use : Use) | validatePackageSignature
  | verifyPackageIndex | readPackageMetadata | architectureIsCompatible | metadataMatches
  | scriptCapability | scriptExists | createScriptLog | createPipe | createProcess
  | recordArchiveRepository | writeInstallationAudit | writeUpgradeAudit | fileExists | deleteFile
  | handoffCapability | handoffPaths | copyExecutable | backgroundOutput

/-- **The environment of a run.** The functions of a number answer for the moment it counts. -/
structure Env where
  /-- `wpm_get_data_root`. -/
  dataRoot : Option Bytes
  /-- `GetFullPathNameA`, into a buffer of `PLAN_PATH` bytes. -/
  fullPath : Bytes → Option Bytes
  readonly : Bool
  /-- BLAKE2b with 32 bytes. -/
  hash : Bytes → Bytes
  /-- What `wpm_archive_inspect` answers when it finds these bytes in the file at each moment. -/
  inspect : (ℕ → Bytes) → Option PackageInfo
  /-- What `wpm_archive_validate_readonly` answers: the signing key, or `unsigned`. -/
  validate : Bool → (ℕ → Bytes) → Option Bytes
  ok : Work → ℕ → Bool
  /-- `state_digest`: the digest of the trees `packages`, `trust` and `config`. -/
  stateDigest : ℕ → Option Bytes
  /-- `GetSystemTime`, as `journal_time` writes it. -/
  now : ℕ → Bytes
  /-- `randombytes_buf` with 16 bytes. -/
  random : ℕ → Bytes
  exitCode : ℕ → ℕ
  /-- The identity of a file that is created. -/
  created : ℕ → FileId
  /-- How many reads a call makes of an archive. -/
  reads : ℕ → ℕ
  /-- The archives that a search of the package store finds. -/
  storeArchives : ℕ → List Bytes
  /-- What the other processes do to the files. -/
  foreign : ℕ → Disk → Disk

/-! ### The world -/

/-- The static variables of `operation.c`, the files, those held open without write sharing, the
time, and the trace. -/
structure World where
  items : List PlanItem
  collecting : Bool
  active : Bool
  assumeYes : Bool
  executing : Option ℕ
  approvedState : Bytes
  selectedSource : Bytes
  approvedPlan : Bytes
  disk : Disk
  locked : List FileId
  tick : ℕ
  trace : List Event

/-- The process at its start. -/
def World.start (disk : Disk) : World where
  items := []
  collecting := false
  active := false
  assumeYes := false
  executing := none
  approvedState := []
  selectedSource := []
  approvedPlan := []
  disk := disk
  locked := []
  tick := 0
  trace := []

namespace World

def emit (e : Event) (w : World) : World := { w with trace := e :: w.trace }

def updateItem (i : ℕ) (f : PlanItem → PlanItem) (w : World) : World :=
  { w with items := w.items.modify i f }

variable (env : Env)

/-- The other processes act: what they do to the contents of a held file is refused. -/
def interfere (w : World) : Disk :=
  let disk := env.foreign w.tick w.disk
  { names := disk.names
    contents := fun f => if f ∈ w.locked then w.disk.contents f else disk.contents f }

def advance (w : World) : World := { w with disk := w.interfere env, tick := w.tick + 1 }

end World

/-! ### Commands on the world -/

abbrev Op : Type → Type := Cmd World

variable (env : Env)

def emit (e : Event) : Op Unit := .modify (World.emit e)

def updateItem (i : ℕ) (f : PlanItem → PlanItem) : Op Unit := .modify (World.updateItem i f)

/-- Let the other processes act. -/
def advance : Op Unit := .modify (World.advance env)

/-- A value of the environment at this moment. -/
def sample {α : Type} (f : ℕ → α) : Op α := do
  advance env
  let w ← Cmd.get
  pure (f w.tick)

/-- A step of which only its success matters. -/
def work (k : Work) : Op Bool := sample env (env.ok k)

/-- A step that must succeed. -/
def must (k : Work) : Op Unit := do
  let ok ← work env k
  Cmd.guard (ok = true)

/-- The item at an index. -/
def planItem (i : ℕ) : Op PlanItem := do
  let w ← Cmd.get
  Cmd.ofOption w.items[i]?

/-- A phase of the item that is executed has failed. -/
def noteFailure : Op Unit := do
  let w ← Cmd.get
  match w.executing with
  | some i => emit (.failed i)
  | none => pure ()

/-- `strcpy_s` into a buffer: a text that is too long leaves the empty one. -/
def copyText (size : ℕ) (text : Bytes) : Bytes := if text.length < size then text else []

/-- Open the file of a path: what it is, at this moment. -/
def openFile (path : Bytes) : Op FileId := do
  advance env
  let w ← Cmd.get
  Cmd.ofOption (w.disk.names (fold path))

/-- `hash_file`: the handle shares no writes, so that the bytes are those of one moment. -/
def hashFile (path : Bytes) : Op Bytes := do
  let f ← openFile env path
  let w ← Cmd.get
  must env .hashFile
  pure (w.disk.contents f)

/-- The identity of the file at a path, as `file_identity_matches` reads it, if it can be read. -/
def identityAt (path : Bytes) : Op (Option FileId) := do
  advance env
  let w ← Cmd.get
  pure (if env.ok .readIdentity w.tick then w.disk.names (fold path) else none)

/-- `state_digest`. -/
def stateDigest : Op Bytes := do
  let digest ← sample env env.stateDigest
  Cmd.ofOption digest

/-- Open a file by its path with write sharing and read it `n` times: its bytes at each moment, the
last one standing for all later ones. -/
def watch (path : Bytes) : Op (ℕ → Bytes) := do
  let f ← openFile env path
  let w ← Cmd.get
  let n ← sample env env.reads
  Cmd.modify fun w => (World.advance env)^[n] w
  pure fun k => ((World.advance env)^[min k n] w).disk.contents f

/-- Read an open file, `n` times. -/
def readPieces (use : Use) (source : Source) (f : FileId) : ℕ → Op Unit
  | 0 => pure ()
  | n + 1 => do
    advance env
    let w ← Cmd.get
    emit (.read use source (w.disk.contents f))
    readPieces use source f n

/-- The copy loops of `retain_input` and `wpm_operation_store_input`, with the bytes received so
far: they stop unless the file has exactly `size` bytes. `note` is done with every read. -/
def copyFrom (f : FileId) (write : Work) (note : Bytes → Op Unit) (size : ℕ) :
    ℕ → Bytes → Op Bytes
  | 0, _ => Cmd.fail
  | fuel + 1, received => do
    advance env
    let w ← Cmd.get
    note (w.disk.contents f)
    let buffer := ((w.disk.contents f).drop received.length).take 65536
    if buffer = [] then
      Cmd.guard (received.length = size)
      pure received
    else
      Cmd.guard (received.length + buffer.length ≤ size)
      must env write
      copyFrom f write note size fuel (received ++ buffer)

/-- The size of the file, and its copy. -/
def copyFile (f : FileId) (write : Work) (note : Bytes → Op Unit) : Op Bytes := do
  advance env
  let w ← Cmd.get
  let size := (w.disk.contents f).length
  copyFrom env f write note size (size + 2) []

end Wpm.Operation
