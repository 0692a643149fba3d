import Wpm.Operation.Plan
import Wpm.Archive.Path

/-!
The operations of `archive.c` that a plan drives: `wpm_archive_install`, `wpm_archive_upgrade`,
`wpm_archive_remove` and `wpm_archive_schedule_self_upgrade`.

While a plan is collected each of them only registers its archive. What they do to the staging
directory, to the audit and to the repository records has no part in the plan, so that only its
success counts (`must`, `work`); the reads of the package archive are in the model one by one. A
`goto cleanup` is the end of an attempted block.
-/

namespace Wpm.Operation

open Wpm.Lib.CString Wpm.Lib.Command Wpm.Archive

/-! ### Names -/

/-- `path_basename`. -/
def pathBasename (path : Bytes) : Bytes :=
  (path.reverse.takeWhile fun c => !isSeparator c).reverse

/-- The name without its extension `.zip`, if it has one. -/
def stripZip (name : Bytes) : Bytes :=
  let kept := name.take (name.length - 4)
  if fold (name.drop kept.length) = str ".zip" then kept else name

/-- `is_valid_package_name`. -/
def isValidPackageName (name : Bytes) : Bool :=
  name ≠ [] && name ≠ str "." && name ≠ str ".." &&
    name.all fun c => c ≠ ch '\\' && c ≠ ch '/' && c ≠ ch ':'

variable (env : Env)

/-! ### Reading and storing an archive -/

/-- A caller of `archive_reader_open` with a path: it reads the held copy, or the file at the
path. -/
def readArchive (use : Use) (path : Bytes) : Op Unit := do
  let w ← Cmd.get
  match input env w path with
  | .refused => Cmd.fail
  | .controlled f =>
    let n ← sample env env.reads
    readPieces env use (.retained f) f n
    must env (.archiveRead use)
  | .unrelated =>
    let f ← openFile env path
    let n ← sample env env.reads
    readPieces env use (.path path) f n
    must env (.archiveRead use)

/-- `wpm_archive_extract_with_label`. -/
def extract (path : Bytes) : Op Unit := do
  must env .createDirectories
  readArchive env .extract path

/-- The inspections in `installed_architecture_is_compatible`; an archive that cannot be read is
left out. -/
def inspectInstalled : List Bytes → Op Unit
  | [] => pure ()
  | path :: paths => do
    let _ ← (readArchive env .installed path).attempt
    inspectInstalled paths

/-- `installed_architecture_is_compatible`. -/
def installedArchitectureIsCompatible : Op Unit := do
  let archives ← sample env env.storeArchives
  inspectInstalled env archives
  must env .architectureIsCompatible

/-- `archive_store_input`, and the test before it: without a plan an archive that is in the store
stays where it is. -/
def archiveStoreInput (source destination : Bytes) : Op Unit := do
  let w ← Cmd.get
  if w.active then storeInput env destination
  else if fold source ≠ fold destination then must env .copyFile

/-- A step whose failure is put on record by `write_upgrade_audit`. -/
def orAudit (c : Op Unit) : Op Unit := c.onFail do
  let _ ← work env .writeUpgradeAudit

/-! ### The script -/

/-- `run_package_script`. -/
def runPackageScript (staging scriptName : Bytes) : Op Unit := do
  beforeScript env
  phaseStart env .script
  let scriptPath ← Cmd.ofOption (joinPath staging scriptName)
  let scriptExists ← work env .scriptExists
  if scriptExists = false then phaseFinish env .script
  else
    must env .createScriptLog
    Cmd.guard (scriptPath.length + 24 < 2 * pathSize)
    must env .createPipe
    externalStart env .script
    must env .createProcess
    let w ← Cmd.get
    emit (.started w.executing false)
    let exitCode ← sample env env.exitCode
    emit (.exited exitCode)
    scriptResult env exitCode
    Cmd.guard (exitCode = 0)

/-! ### The parts that the operations share -/

/-- The end of the phase `stage`, and the phases `extract` and `validate`. -/
def extractAndValidate (extracting validating : Op Unit) : Op Unit := do
  phaseFinish env .stage
  phaseStart env .extract
  extracting
  phaseFinish env .extract
  phaseStart env .validate
  validating
  phaseFinish env .validate

/-- The phase `cleanup` is entered after a success only. -/
def startCleanup (success : Bool) : Op Unit := do
  if success then phaseStart env .cleanup

/-- The label `cleanup` of an operation with phases. -/
def finish (success : Bool) : Op Unit := do
  startCleanup env success
  let removed ← work env .removeDirectoryTree
  Cmd.guard (removed = true ∧ success = true)
  phaseFinish env .cleanup
  completed env

/-- The block before the label, and the rest of the operation. -/
def withCleanup (block : Op Unit) : Op Unit := do
  let success ← (block.onFail noteFailure).attempt
  finish env success

/-- What an operation does once its archive got past `wpm_operation_archive`: while the plan is
collected, nothing. -/
def execute (body : Op Unit) : Op Unit := do
  let w ← Cmd.get
  if w.active ∧ w.collecting then pure ()
  else body.onFail noteFailure

/-! ### The operations -/

/-- The block of `wpm_archive_install`. -/
def installBlock (full staging stored : Bytes) : Op Unit := do
  extractAndValidate env (extract env full) do
    must env .validatePackageSignature
    must env .verifyPackageIndex
    must env .readPackageMetadata
    installedArchitectureIsCompatible env
  runPackageScript env staging (str ".wpm\\install.cmd")
  phaseStart env .retainArchive
  archiveStoreInput env full stored
  phaseFinish env .retainArchive
  phaseStart env .audit
  let _ ← work env .recordArchiveRepository
  must env .writeInstallationAudit
  phaseFinish env .audit

/-- `wpm_archive_install`. -/
def install (path : Bytes) (repositoryUrl : Option Bytes) (allowUnsigned : Bool) : Op Unit := do
  archive env .install path none repositoryUrl allowUnsigned
  execute do
    let full ← Cmd.ofOption (env.fullPath path)
    let packageName := stripZip (pathBasename full)
    Cmd.guard (isValidPackageName packageName = true)
    let _ ← (readArchive env .metadata full).attempt
    let storedName ← storeName (pathBasename full) pathSize
    let root ← Cmd.ofOption env.dataRoot
    let tempRoot ← Cmd.ofOption (joinPath root (str "temp"))
    let packageStore ← Cmd.ofOption (joinPath root (str "packages"))
    let staging ← Cmd.ofOption (joinPath tempRoot packageName)
    let stored ← Cmd.ofOption (joinPath packageStore storedName)
    phaseStart env .stage
    must env .createDirectories
    must env .removeDirectoryTree
    withCleanup env (installBlock env full staging stored)

/-- The block of `wpm_archive_upgrade`. -/
def upgradeBlock (full stage stored : Bytes) : Op Unit := do
  extractAndValidate env (orAudit env (extract env full)) do
    orAudit env (must env .validatePackageSignature)
    orAudit env (must env .verifyPackageIndex)
    orAudit env (must env .readPackageMetadata)
    orAudit env (must env .metadataMatches)
    orAudit env (installedArchitectureIsCompatible env)
  orAudit env (runPackageScript env stage (str ".wpm\\install.cmd"))
  phaseStart env .retainArchive
  orAudit env (archiveStoreInput env full stored)
  phaseFinish env .retainArchive
  phaseStart env .audit
  let _ ← work env .recordArchiveRepository
  must env .writeUpgradeAudit
  phaseFinish env .audit

/-- `wpm_archive_upgrade`. -/
def upgrade (path : Bytes) (repositoryUrl : Option Bytes) (allowUnsigned : Bool)
    (oldVersion : Bytes) : Op Unit := do
  archive env .upgrade path (some oldVersion) repositoryUrl allowUnsigned
  execute do
    let full ← Cmd.ofOption (env.fullPath path)
    let base ← storeName (pathBasename full) pathSize
    phaseStart env .stage
    let root ← Cmd.ofOption env.dataRoot
    let temp ← Cmd.ofOption (joinPath root (str "temp"))
    let store ← Cmd.ofOption (joinPath root (str "packages"))
    let stage ← Cmd.ofOption (joinPath temp base)
    let stored ← Cmd.ofOption (joinPath store base)
    must env .createDirectories
    must env .removeDirectoryTree
    withCleanup env (upgradeBlock env full stage stored)

/-- The block of `wpm_archive_remove`. -/
def removeBlock (stored staging : Bytes) : Op Unit := do
  extractAndValidate env (extract env stored) do
    must env .verifyPackageIndex
    must env .readPackageMetadata
  runPackageScript env staging (str ".wpm\\remove.cmd")
  phaseStart env .removeRecord
  must env .deleteFile
  emit .removed
  phaseFinish env .removeRecord

/-- `wpm_archive_remove`. -/
def remove (packageName : Bytes) : Op Unit := do
  Cmd.guard (packageName.length < pathSize)
  let archiveName := stripZip packageName
  Cmd.guard (isValidPackageName archiveName = true)
  let root ← Cmd.ofOption env.dataRoot
  let tempRoot ← Cmd.ofOption (joinPath root (str "temp"))
  let packageStore ← Cmd.ofOption (joinPath root (str "packages"))
  let staging ← Cmd.ofOption (joinPath tempRoot archiveName)
  Cmd.guard (archiveName.length + 4 < pathSize)
  let stored ← Cmd.ofOption (joinPath packageStore (archiveName ++ str ".zip"))
  must env .fileExists
  archive env .remove stored none none true
  execute do
    phaseStart env .stage
    must env .createDirectories
    must env .removeDirectoryTree
    withCleanup env (removeBlock env stored staging)

/-- The block of `wpm_archive_schedule_self_upgrade`: the new program is staged, copied out of the
stage and started. -/
def handoffBlock (full : Bytes) : Op Unit := do
  orAudit env (extract env full)
  orAudit env do
    must env .validatePackageSignature
    must env .verifyPackageIndex
    must env .readPackageMetadata
  orAudit env (must env .metadataMatches)
  must env .copyExecutable
  must env .backgroundOutput
  externalStart env .handoff
  must env .createProcess
  let w ← Cmd.get
  emit (.started w.executing true)

/-- `wpm_archive_schedule_self_upgrade`. -/
def scheduleSelfUpgrade (path : Bytes) (repositoryUrl : Option Bytes) (allowUnsigned : Bool)
    (oldVersion : Bytes) : Op Unit := do
  archive env .selfUpgrade path (some oldVersion) repositoryUrl allowUnsigned
  execute do
    must env .handoffCapability
    let full ← Cmd.ofOption (env.fullPath path)
    must env .handoffPaths
    must env .removeDirectoryTree
    let result ← ((handoffBlock env full).onFail noteFailure).attempt
    let removed ← work env .removeDirectoryTree
    Cmd.guard (removed = true ∧ result = true)
    completed env

/-! ### Runs -/

/-- What a command does between two steps of its plan: choose a source, confirm, or call one of the
operations. -/
inductive Step
  | setSource (source : Option Bytes)
  | confirm
  | install (path : Bytes) (repositoryUrl : Option Bytes) (allowUnsigned : Bool)
  | upgrade (path : Bytes) (repositoryUrl : Option Bytes) (allowUnsigned : Bool)
    (oldVersion : Bytes)
  | remove (packageName : Bytes)
  | scheduleSelfUpgrade (path : Bytes) (repositoryUrl : Option Bytes) (allowUnsigned : Bool)
    (oldVersion : Bytes)

def Step.op : Step → Op Unit
  | .setSource source => Operation.setSource source
  | .confirm => Operation.confirm env
  | .install path repositoryUrl allowUnsigned =>
    Operation.install env path repositoryUrl allowUnsigned
  | .upgrade path repositoryUrl allowUnsigned oldVersion =>
    Operation.upgrade env path repositoryUrl allowUnsigned oldVersion
  | .remove packageName => Operation.remove env packageName
  | .scheduleSelfUpgrade path repositoryUrl allowUnsigned oldVersion =>
    Operation.scheduleSelfUpgrade env path repositoryUrl allowUnsigned oldVersion

/-- The state after the steps, each taken whether or not the one before it failed. -/
def steps (l : List Step) (w : World) : World :=
  (l.map (Step.op env)).foldl (fun w c => (c w).2) w

/-- **A planned run**: from the start of the process `wpm_operation_begin`, any steps, and
`wpm_operation_close` when the process exits. -/
def run (disk : Disk) (yes : Bool) (l : List Step) : World :=
  (close env (steps env l (begin env yes (World.start disk)).2)).2

end Wpm.Operation
