import Wpm.Operation.State

/-!
The functions of `operation.c`.

Each is a command on the world, under its own name without the prefix `wpm_operation_`; a function
that returns zero or a negative number stops. Where the source sets a failure flag or writes a
failed journal entry the trace gets the event `failed`.
-/

namespace Wpm.Operation

open Wpm.Lib.CString Wpm.Lib.Command

/-! ### Paths -/

/-- The data root through `GetFullPathNameA`. -/
def Env.root (env : Env) : Option Bytes := do
  let supplied ← env.dataRoot
  let root ← env.fullPath supplied
  guard (3 < root.length)
  some root

variable (env : Env)

/-- `plan_recovery_path`: a random recovery id, and the path that the input is to be kept at. -/
def planRecoveryPath : Op (Bytes × Bytes) := do
  let root ← Cmd.ofOption env.root
  let random ← sample env env.random
  let recoveryId := bin2hex random
  let retained := root ++ str "\\recovery\\" ++ recoveryId ++ str "\\input.zip"
  Cmd.guard (retained.length < planPath)
  pure (recoveryId, retained)

/-- The directory of the recovery records, in `journal_write`. -/
def recoveryDirectory : Option Bytes := do
  let root ← env.root
  guard (root.length + 10 < planPath)
  some (root ++ str "\\recovery")

/-! ### The journal -/

/-- The record that `journal_write` puts together. -/
def PlanItem.record (item : PlanItem) (approvedPlan updated : Bytes) (phase : Phase)
    (status : Status) : Record where
  operationId := item.recoveryId
  operation := item.action
  created := item.created
  updated := updated
  planDigest := approvedPlan
  status := status
  phase := phase
  name := item.identity.name
  arch := item.identity.arch
  oldVersion := if item.action = .remove then some item.identity.version
    else if item.oldVersion = str "none" then none else some item.oldVersion
  newVersion := if item.action = .remove then none else some item.identity.version
  source := item.source
  signer := if item.signingKey = [] then none else some item.signingKey
  inputPath := item.archive
  blake2b := bin2hex item.fingerprint
  external := item.external
  scriptExitCode := item.scriptExit
  artifactPath := item.retained
  artifactState := item.retainedState
  completedPhases := item.completed
  failedPhase := if status = .failed then some phase else none

/-- The item gets its time of creation with its first record. -/
def stampCreated (i : ℕ) (item : PlanItem) : Op Unit := do
  if item.created = [] then
    let created ← sample env env.now
    updateItem i fun item => { item with created := created }

/-- `journal_write` up to its label `done`: the record is written to a new file, which is then
renamed to the record's name. -/
def journalCommit (i : ℕ) (phase : Phase) (status : Status) : Op Unit := do
  let item ← planItem i
  Cmd.guard (item.journalFailed = false ∧ env.readonly = false)
  let directory ← Cmd.ofOption (recoveryDirectory env)
  must env .openRecoveryDirectory
  stampCreated env i item
  Cmd.guard (directory.length + 43 < planPath)
  must env (if item.journalStarted then .sameRecord else .noRecord)
  must env .createRecord
  let updated ← sample env env.now
  let item ← planItem i
  let w ← Cmd.get
  let r := item.record w.approvedPlan updated phase status
  Cmd.guard (r.document.isSome = true)
  must env .writeRecord
  must env .publishRecord
  emit (.published i r)
  must env .closeRecord
  updateItem i fun item => { item with journalStarted := true, phase := some phase }

/-- `journal_write`. -/
def journalWrite (i : ℕ) (phase : Phase) (status : Status) (exitCode : Option ℕ) : Op Unit := do
  updateItem i fun item => { item with scriptExit := exitCode.or item.scriptExit }
  (journalCommit env i phase status).onFail do
    updateItem i fun item => { item with journalFailed := true }
    emit (.failed i)

/-- `wpm_operation_phase_start`. -/
def phaseStart (phase : Phase) : Op Unit := do
  Cmd.guard (phase.text ≠ [])
  let w ← Cmd.get
  if w.active then
    Cmd.guard (w.collecting = false)
    let i ← Cmd.ofOption w.executing
    let item ← planItem i
    Cmd.guard (item.failed = false ∧ phase.text.length < 32)
    journalWrite env i phase .inProgress none

/-- `wpm_operation_phase_finish`. -/
def phaseFinish (phase : Phase) : Op Unit := do
  Cmd.guard (phase.text ≠ [])
  let w ← Cmd.get
  if w.active then
    Cmd.guard (w.collecting = false)
    let i ← Cmd.ofOption w.executing
    let item ← planItem i
    Cmd.guard (item.failed = false ∧ item.phase = some phase ∧ item.completed.length ≠ 16 ∧
      phase.text.length < 32)
    updateItem i fun item => { item with completed := item.completed ++ [phase] }
    journalWrite env i phase .inProgress none

/-- `wpm_operation_external_start`. -/
def externalStart (phase : Phase) : Op Unit := do
  let w ← Cmd.get
  if w.active then
    let i ← Cmd.ofOption w.executing
    Cmd.guard (w.collecting = false)
    updateItem i fun item => { item with external := true, scriptExit := none }
    phaseStart env phase

/-- `wpm_operation_script_result`. -/
def scriptResult (exitCode : ℕ) : Op Unit := do
  let w ← Cmd.get
  if w.active then
    let i ← Cmd.ofOption w.executing
    updateItem i fun item => { item with scriptExit := some exitCode }
    if exitCode ≠ 0 then
      updateItem i fun item => { item with failed := true }
      emit (.failed i)
      journalWrite env i .script .failed (some exitCode)
    else phaseFinish env .script

/-! ### The held copy -/

/-- Create the copy of an item's input: an exclusively held file that no open handle is on. -/
def createInput (item : PlanItem) : Op FileId := do
  must env .createInput
  let output ← sample env env.created
  let w ← Cmd.get
  Cmd.guard (output ∉ w.locked)
  Cmd.modify fun w => { w with
    locked := output :: w.locked
    disk := { w.disk with
      names := Function.update w.disk.names (fold item.retained) (some output) } }
  pure output

/-- Close a handle that shared no writes. -/
def unlock (f : FileId) : Op Unit := .modify fun w => { w with locked := w.locked.erase f }

/-- The held input is copied to the new file, which is then hashed through the same handle. -/
def fillInput (item : PlanItem) (output : FileId) : Op Unit := do
  let bytes ← copyFile env item.fileIdentity .writeInput fun _ => pure ()
  Cmd.modify fun w => { w with
    disk := { w.disk with contents := Function.update w.disk.contents output bytes } }
  advance env
  let w ← Cmd.get
  Cmd.guard (env.hash (w.disk.contents output) = item.fingerprint)
  must env .flushInput

/-- The copy is opened again, without write sharing, and its bytes are hashed once more through the
handle that stays open. -/
def openCopy (i : ℕ) (item : PlanItem) (output : FileId) : Op Unit := do
  let opened ← openFile env item.retained
  must env .openRetained
  Cmd.modify fun w => { w with locked := opened :: w.locked }
  updateItem i fun item => { item with retainedInput := some opened }
  Cmd.guard (opened = output)
  advance env
  let w ← Cmd.get
  Cmd.guard (env.hash (w.disk.contents opened) = item.fingerprint)
  emit (.retained i opened (w.disk.contents opened))
  updateItem i fun item => { item with retainedState := .retained }

/-- `retain_input` up to its label `done`. -/
def retainCopy (i : ℕ) : Op Unit := do
  let item ← planItem i
  must env .createOperationDirectory
  updateItem i fun item => { item with retainedState := .incomplete }
  let output ← createInput env item
  (fillInput env item output).onFail (unlock output)
  unlock output
  openCopy env i item output

/-- `retain_input`. -/
def retainInput (i : ℕ) : Op Unit :=
  (retainCopy env i).onFail do
    updateItem i fun item => { item with failed := true }
    emit (.failed i)
    journalWrite env i .retainInput .failed none

/-- What `wpm_operation_input` answers: a failure, a path that is not the plan's, or the handle to
read instead. -/
inductive Input
  | refused
  | unrelated
  | controlled (f : FileId)

/-- `wpm_operation_input`. -/
def input (w : World) (archive : Bytes) : Input :=
  if w.active = false ∨ w.collecting then .unrelated
  else match w.executing.bind (w.items[·]?) with
    | none => .unrelated
    | some item => match env.fullPath archive with
      | none => .refused
      | some canonical =>
        if fold canonical ≠ fold item.archive ∧ fold canonical ≠ fold item.retained then .unrelated
        else if item.failed ∨ item.journalFailed ∨ item.retainedState ≠ .retained then .refused
        else match item.retainedInput with
          | none => .refused
          | some f => .controlled f

/-- `wpm_operation_store_name`, of the item: the name of the archive in the package store. -/
def PlanItem.storeName (item : PlanItem) (size : ℕ) : Option Bytes :=
  let name := item.identity.name ++ str "-" ++ item.identity.arch ++ str "-" ++
    item.identity.version ++ str ".zip"
  if name.length < size then some name else none

/-- `wpm_operation_store_name`: the name of the item that is executed, or `given` without a plan. -/
def storeName (given : Bytes) (size : ℕ) : Op Bytes := do
  let w ← Cmd.get
  if w.active then
    Cmd.guard (w.collecting = false)
    let i ← Cmd.ofOption w.executing
    let item ← planItem i
    Cmd.ofOption (item.storeName size)
  else pure given

/-- The root without its trailing separators, as `wpm_operation_store_input` trims it. -/
def trimRoot (root : Bytes) : Bytes :=
  root.take 3 ++ (root.drop 3).rdropWhile (· = ch '\\')

/-- `wpm_operation_store_input` when a plan is active: the held copy is copied to a new file, which
is then renamed to its name in the package store. -/
def storeInput (destination : Bytes) : Op Unit := do
  let w ← Cmd.get
  Cmd.guard (w.collecting = false)
  let i ← Cmd.ofOption w.executing
  let item ← planItem i
  Cmd.guard (item.failed = false ∧ item.journalFailed = false ∧ item.retainedState = .retained ∧
    item.action ≠ .remove)
  let name ← Cmd.ofOption (item.storeName 256)
  let supplied ← Cmd.ofOption env.dataRoot
  let state ← stateDigest env
  Cmd.guard (state = w.approvedState)
  let root ← Cmd.ofOption (env.fullPath supplied)
  Cmd.guard (root.length + name.length + 12 < planPath)
  let canonical ← Cmd.ofOption (env.fullPath destination)
  Cmd.guard (fold canonical = fold (trimRoot root ++ str "\\packages\\" ++ name))
  must env .openStore
  must env .createStored
  let f ← Cmd.ofOption item.retainedInput
  let bytes ← copyFile env f .writeStored fun bytes => emit (.read .store (.retained f) bytes)
  Cmd.guard (env.hash bytes = item.fingerprint)
  must env .publishStored
  emit (.stored i)
  must env .closeStored

/-! ### The plan -/

/-- The last record of an item that the process leaves unfinished. -/
def closeJournal (i : ℕ) : Op Unit := do
  let item ← planItem i
  Cmd.guard (item.journalStarted = true ∧ item.journalFailed = false)
  let phase ← Cmd.ofOption item.phase
  journalWrite env i phase .failed none

/-- `wpm_operation_close`. -/
def close : Op Unit := do
  let w ← Cmd.get
  let _ ← (Cmd.ofOption w.executing >>= closeJournal env).attempt
  Cmd.modify fun w => { w with
    items := [], locked := [], active := false, collecting := false, executing := none }

/-- `wpm_operation_begin`. -/
def begin (yes : Bool) : Op Unit := do
  close env
  Cmd.modify fun w => { w with active := true, collecting := true, assumeYes := yes }

/-- `wpm_operation_set_source`. -/
def setSource (source : Option Bytes) : Op Unit :=
  Cmd.modify fun w => { w with selectedSource := (source.map (copyText planPath)).getD [] }

/-- The source of an archive: the given one, or the archive itself. -/
def sourceOr (source : Option Bytes) (full : Bytes) : Bytes :=
  if source.getD [] = [] then full else source.getD []

/-- What `wpm_operation_archive` does with an archive while the plan is collected. -/
def collectItem (action : Action) (full : Bytes) (oldVersion source : Option Bytes)
    (allowUnsigned : Bool) (hashed : Bytes) : Op Unit := do
  let w ← Cmd.get
  Cmd.guard ((w.items.any fun item => fold item.archive = fold full ∧ item.action = action) = false)
  Cmd.guard (w.items.length < 256)
  let inspected ← watch env full
  let identity ← Cmd.ofOption (env.inspect inspected)
  let validated ← watch env full
  let signingKey ← Cmd.ofOption (env.validate allowUnsigned validated)
  let (recoveryId, retained) ← planRecoveryPath env
  let f ← openFile env full
  must env .openInput
  let a : Approved :=
    { action, archive := full, source := copyText planPath (sourceOr source full)
      oldVersion := copyText 64 (oldVersion.getD (str "none")), signingKey, identity
      fingerprint := env.hash hashed, fileIdentity := f, recoveryId, retained }
  Cmd.modify fun w => World.emit (.collected a allowUnsigned { hashed, inspected, validated })
    { w with items := w.items ++ [PlanItem.collect a], locked := f :: w.locked }

def PlanItem.consume (item : PlanItem) : PlanItem := { item with consumed := true }

def World.consume (i : ℕ) (call : Call) (digest : Bytes) (w : World) : World :=
  { w with
    items := w.items.modify i PlanItem.consume
    executing := some i
    trace := .consumed i call digest :: w.trace }

/-- The matched item is executed from here on: its first record, and the copy of its input. -/
def consume (i : ℕ) (call : Call) (digest : Bytes) : Op Unit := do
  Cmd.modify (World.consume i call digest)
  journalWrite env i .retainInput .inProgress none
  retainInput env i
  phaseFinish env .retainInput
  emit (.passed i)

/-- The loop over the items in `wpm_operation_archive`: the first one that was not consumed yet and
is the one asked for. -/
def consumeFrom (action : Action) (full source oldVersion fingerprint digest : Bytes) :
    List (PlanItem × ℕ) → Op Unit
  | [] => Cmd.fail
  | (item, i) :: items =>
    if item.consumed = false ∧ item.action = action ∧ fold item.archive = fold full ∧
        item.source = source ∧ item.oldVersion = oldVersion ∧ item.fingerprint = fingerprint then do
      match ← identityAt env item.archive with
      | some fileIdentity =>
        if fileIdentity = item.fileIdentity then
          consume env i { action, archive := full, source, oldVersion, fingerprint, fileIdentity }
            digest
        else consumeFrom action full source oldVersion fingerprint digest items
      | none => consumeFrom action full source oldVersion fingerprint digest items
    else consumeFrom action full source oldVersion fingerprint digest items

/-- `wpm_operation_archive`. -/
def archive (action : Action) (path : Bytes) (oldVersion source : Option Bytes)
    (allowUnsigned : Bool) : Op Unit := do
  let w ← Cmd.get
  if w.active then
    Cmd.guard (w.executing = none)
    let source := if w.selectedSource = [] then source else some w.selectedSource
    let full ← Cmd.ofOption (env.fullPath path)
    let bytes ← hashFile env full
    if w.collecting then collectItem env action full oldVersion source allowUnsigned bytes
    else
      let state ← stateDigest env
      Cmd.guard (state = w.approvedState)
      consumeFrom env action full (sourceOr source full) (oldVersion.getD (str "none"))
        (env.hash bytes) state w.items.zipIdx

/-- What the plan digest is the hash of: the texts of every item with their terminators, its
fingerprint and its file identity, and at the end the state digest. -/
def planBytes (items : List PlanItem) (state : Bytes) : Bytes :=
  (items.flatMap fun item =>
    ([item.action.text, item.archive, item.source, item.oldVersion, item.identity.name,
      item.identity.arch, item.identity.version, item.signingKey, item.recoveryId,
      item.retained].flatMap fun field => field ++ [0]) ++
    item.fingerprint ++ item.fileIdentity.bytes) ++ state

/-- The check of every input in `wpm_operation_confirm`. -/
def recheckFrom : List (PlanItem × ℕ) → Op Unit
  | [] => pure ()
  | (item, i) :: items => do
    let identity ← identityAt env item.archive
    Cmd.guard (identity = some item.fileIdentity)
    let bytes ← hashFile env item.archive
    emit (.rechecked i bytes)
    Cmd.guard (env.hash bytes = item.fingerprint)
    recheckFrom items

/-- The question whether to proceed. -/
def askApproval (w : World) : Op Unit := do
  if w.items ≠ [] ∧ w.assumeYes = false then must env .answer

/-- `wpm_operation_confirm`, which answers when it returns one. -/
def confirm : Op Unit := do
  let w ← Cmd.get
  Cmd.guard (w.active ∧ w.collecting)
  let approvedState ← stateDigest env
  Cmd.modify fun w => { w with approvedState }
  let _ ← Cmd.ofOption env.dataRoot
  Cmd.modify fun w => { w with approvedPlan := bin2hex (env.hash (planBytes w.items approvedState)) }
  Cmd.guard (env.readonly = false)
  askApproval env w
  let current ← stateDigest env
  Cmd.guard (current = approvedState)
  recheckFrom env w.items.zipIdx
  Cmd.modify fun w => World.emit (.approved approvedState) { w with collecting := false }

/-- `wpm_operation_before_script`. -/
def beforeScript : Op Unit := do
  must env .scriptCapability
  let w ← Cmd.get
  if w.active then
    Cmd.guard (w.collecting = false)
    let i ← Cmd.ofOption w.executing
    let item ← planItem i
    let identity ← identityAt env item.archive
    Cmd.guard (identity = some item.fileIdentity)
    let bytes ← hashFile env item.archive
    Cmd.guard (env.hash bytes = item.fingerprint)
    let state ← stateDigest env
    Cmd.guard (state = w.approvedState)
    Cmd.guard (item.journalFailed = false)

/-- The phase and status of the last record of an item: a self-upgrade is only handed off. -/
def PlanItem.completion (item : PlanItem) : Phase × Status :=
  if item.action = .selfUpgrade then (.handoff, .pending) else (.completed, .completed)

/-- `wpm_operation_completed`. When the state cannot be digested, zeros are approved. -/
def completed : Op Unit := do
  let w ← Cmd.get
  if w.active ∧ w.collecting = false then
    let i ← Cmd.ofOption w.executing
    let item ← planItem i
    journalWrite env i item.completion.1 item.completion.2 none
    let state ← sample env env.stateDigest
    let approvedState := state.getD (List.replicate 32 0)
    Cmd.modify fun w => World.emit (.completed i approvedState)
      { w with approvedState, executing := none }

end Wpm.Operation
