import Wpm.Operation.Drivers

/-!
The package store under the operations of `archive.c`.

`wpm_archive_install`, `wpm_archive_upgrade` and `wpm_archive_remove` are here with what they do to
the archives under `packages`, and with the outcome of the package's script. Everything else that
they call is left to any world `σ`, whose part are the `Calls`: it may fail at any point, and it may
belong to a plan or not. The log, newest event first, tells what the operations did.
-/

namespace Wpm.Archive.Retention

open Wpm.Lib.CString Wpm.Lib.Command
open Wpm.Operation (Action Phase Work pathBasename stripZip isValidPackageName)

/-! ### The site -/

inductive Event
  /-- An operation is called. -/
  | began (action : Action)
  /-- The archive is extracted to the staging directory. -/
  | staged (package : Bytes)
  /-- The staged package has a script, but its attributes cannot be read. -/
  | overlooked
  | exited (script : Bytes) (code : ℕ)
  /-- The file at the path in the store is created or replaced, with what is left of it. -/
  | replaced (path package : Bytes) (left : Option Bytes)
  | deleted (path package : Bytes)
  deriving DecidableEq

/-- The archives of the package store by their paths in lower case, the archive whose files are in
the staging directory, and the log. -/
structure View where
  store : Bytes → Option Bytes
  staged : Option Bytes
  log : List Event

structure Site (σ : Type) extends View where
  world : σ

/-- The functions of `operation.c` that answer success or failure. -/
inductive PlanCall
  | archive (action : Action) (path : Bytes) (oldVersion : Option Bytes) (allowUnsigned : Bool)
  | phaseStart (phase : Phase)
  | phaseFinish (phase : Phase)
  | beforeScript
  | externalStart (phase : Phase)
  | scriptResult (code : ℕ)
  /-- `wpm_operation_store_input` up to the renaming of its file. -/
  | storeInput (destination : Bytes)
  | completed

/-- What becomes of a `CopyFileA`: a failed one may leave anything at the destination. -/
inductive Copied
  | whole
  | failed (left : Option Bytes)

/-- **The calls that the operations leave to the rest of the world.** -/
structure Calls (σ : Type) where
  dataRoot : Cmd σ Bytes
  /-- `normalized_full_path`. -/
  fullPath : Bytes → Cmd σ Bytes
  work : Work → Cmd σ Unit
  plan : PlanCall → Cmd σ Unit
  /-- `wpm_operation_collecting`. -/
  collecting : Cmd σ Bool
  /-- `wpm_operation_active`. -/
  active : Cmd σ Bool
  /-- `wpm_operation_store_name`. -/
  storeName : Bytes → Cmd σ Bytes
  /-- Whether `GetFileAttributesA` can read the attributes of a script that is there. -/
  readable : Cmd σ Bool
  /-- The exit code of the script's process. -/
  exitCode : Cmd σ ℕ
  copyFile : Cmd σ Copied

variable {σ : Type}

abbrev Op (σ : Type) : Type → Type := Cmd (Site σ)

/-- A call that has no part in the store. -/
def call {α : Type} (c : Cmd σ α) : Op σ α :=
  fun s => ((c s.world).1, { s with world := (c s.world).2 })

def note (e : Event) : Op σ Unit := .modify fun s => { s with log := e :: s.log }

/-- The file at a path in the store becomes `left`. -/
def replace (path package : Bytes) (left : Option Bytes) : Op σ Unit := .modify fun s =>
  { s with
    store := Function.update s.store (fold path) left
    log := .replaced path package left :: s.log }

/-- The file at a path in the store is gone. -/
def delete (path package : Bytes) : Op σ Unit := .modify fun s =>
  { s with
    store := Function.update s.store (fold path) none
    log := .deleted path package :: s.log }

/-! ### The operations -/

section Operations

variable (calls : Calls σ) (hasScript : Bytes → Bytes → Bool)

def work (k : Work) : Op σ Unit := call (calls.work k)

def plan (p : PlanCall) : Op σ Unit := call (calls.plan p)

/-- `remove_directory_tree_with_retry`, of the staging directory. -/
def removeStaging : Op σ Unit := do
  Cmd.modify fun s => { s with staged := none }
  work calls .removeDirectoryTree

/-- `wpm_archive_extract_with_label`. -/
def extractWithLabel (package : Bytes) : Op σ Unit := do
  work calls .createDirectories
  work calls (.archiveRead .extract)
  Cmd.modify fun s => { s with staged := some package, log := .staged package :: s.log }

/-- `file_exists_at_path`, of a script in the staging directory. -/
def scriptExists (script : Bytes) : Op σ Bool := do
  let readable ← call calls.readable
  let s ← Cmd.get
  if s.staged.any (hasScript · script) = false then pure false
  else if readable then pure true
  else do
    note .overlooked
    pure false

/-- `run_package_script`. -/
def runPackageScript (staging script : Bytes) : Op σ Unit := do
  plan calls .beforeScript
  plan calls (.phaseStart .script)
  let scriptPath ← Cmd.ofOption (joinPath staging script)
  let scriptExists ← scriptExists calls hasScript script
  if scriptExists = false then plan calls (.phaseFinish .script)
  else do
    work calls .createScriptLog
    Cmd.guard (scriptPath.length + 24 < 2 * pathSize)
    work calls .createPipe
    plan calls (.externalStart .script)
    work calls .createProcess
    let exitCode ← call calls.exitCode
    note (.exited script exitCode)
    plan calls (.scriptResult exitCode)
    Cmd.guard (exitCode = 0)

/-- `archive_store_input`, and the test before it: without a plan an archive that is in the store
stays where it is. -/
def archiveStoreInput (source destination package : Bytes) : Op σ Unit := do
  let active ← call calls.active
  if active then do
    plan calls (.storeInput destination)
    work calls .publishStored
    replace destination package (some package)
    work calls .closeStored
  else if fold source ≠ fold destination then do
    let copied ← call calls.copyFile
    match copied with
    | .whole => replace destination package (some package)
    | .failed left => do
      replace destination package left
      Cmd.fail

/-- The phase `cleanup` is entered after a success only. -/
def startCleanup (success : Bool) : Op σ Unit := do
  if success then plan calls (.phaseStart .cleanup)

/-- The label `cleanup` of an operation, after its block came to its end or not. -/
def finish (success : Bool) : Op σ Unit := do
  startCleanup calls success
  let removed ← (removeStaging calls).attempt
  Cmd.guard (removed = true ∧ success = true)
  plan calls (.phaseFinish .cleanup)
  plan calls .completed

/-- The block before the label, and the rest of the operation. -/
def withCleanup (block : Op σ Unit) : Op σ Unit := do
  let success ← block.attempt
  finish calls success

/-- A step whose failure is put on record by `write_upgrade_audit`. -/
def orAudit (c : Op σ Unit) : Op σ Unit := c.onFail do
  let _ ← (work calls .writeUpgradeAudit).attempt

/-- The steps from the extraction to the script, with the checks of the operation between them. -/
def stageAndRun (extracting checks running : Op σ Unit) : Op σ Unit := do
  plan calls (.phaseFinish .stage)
  plan calls (.phaseStart .extract)
  extracting
  plan calls (.phaseFinish .extract)
  plan calls (.phaseStart .validate)
  checks
  plan calls (.phaseFinish .validate)
  running

/-- The block of `wpm_archive_install`. -/
def installBlock (full staging stored package : Bytes) : Op σ Unit := do
  stageAndRun calls (extractWithLabel calls package)
    (do
      work calls .validatePackageSignature
      work calls .verifyPackageIndex
      work calls .readPackageMetadata
      work calls .architectureIsCompatible)
    (runPackageScript calls hasScript staging (str ".wpm\\install.cmd"))
  plan calls (.phaseStart .retainArchive)
  archiveStoreInput calls full stored package
  plan calls (.phaseFinish .retainArchive)
  plan calls (.phaseStart .audit)
  let _ ← (work calls .recordArchiveRepository).attempt
  work calls .writeInstallationAudit
  plan calls (.phaseFinish .audit)

/-- `wpm_archive_install`, of the archive with the bytes `package` at a path. -/
def archiveInstall (path package : Bytes) (allowUnsigned : Bool) : Op σ Unit := do
  note (.began .install)
  plan calls (.archive .install path none allowUnsigned)
  let collecting ← call calls.collecting
  if collecting then pure ()
  else do
    let full ← call (calls.fullPath path)
    let packageName := stripZip (pathBasename full)
    Cmd.guard (isValidPackageName packageName = true)
    let _ ← (work calls (.archiveRead .metadata)).attempt
    let storedName ← call (calls.storeName (pathBasename full))
    let root ← call calls.dataRoot
    let tempRoot ← Cmd.ofOption (joinPath root (str "temp"))
    let packageStore ← Cmd.ofOption (joinPath root (str "packages"))
    let staging ← Cmd.ofOption (joinPath tempRoot packageName)
    let stored ← Cmd.ofOption (joinPath packageStore storedName)
    plan calls (.phaseStart .stage)
    work calls .createDirectories
    removeStaging calls
    withCleanup calls (installBlock calls hasScript full staging stored package)

/-- The block of `wpm_archive_upgrade`. -/
def upgradeBlock (full stage stored package : Bytes) : Op σ Unit := do
  stageAndRun calls (orAudit calls (extractWithLabel calls package))
    (do
      orAudit calls (work calls .validatePackageSignature)
      orAudit calls (work calls .verifyPackageIndex)
      orAudit calls (work calls .readPackageMetadata)
      orAudit calls (work calls .metadataMatches)
      orAudit calls (work calls .architectureIsCompatible))
    (orAudit calls (runPackageScript calls hasScript stage (str ".wpm\\install.cmd")))
  plan calls (.phaseStart .retainArchive)
  orAudit calls (archiveStoreInput calls full stored package)
  plan calls (.phaseFinish .retainArchive)
  plan calls (.phaseStart .audit)
  let _ ← (work calls .recordArchiveRepository).attempt
  work calls .writeUpgradeAudit
  plan calls (.phaseFinish .audit)

/-- `wpm_archive_upgrade`, of the archive with the bytes `package` at a path. -/
def archiveUpgrade (path package oldVersion : Bytes) (allowUnsigned : Bool) : Op σ Unit := do
  note (.began .upgrade)
  plan calls (.archive .upgrade path (some oldVersion) allowUnsigned)
  let collecting ← call calls.collecting
  if collecting then pure ()
  else do
    let full ← call (calls.fullPath path)
    let base ← call (calls.storeName (pathBasename full))
    plan calls (.phaseStart .stage)
    let root ← call calls.dataRoot
    let temp ← Cmd.ofOption (joinPath root (str "temp"))
    let store ← Cmd.ofOption (joinPath root (str "packages"))
    let stage ← Cmd.ofOption (joinPath temp base)
    let stored ← Cmd.ofOption (joinPath store base)
    work calls .createDirectories
    removeStaging calls
    withCleanup calls (upgradeBlock calls hasScript full stage stored package)

/-- The block of `wpm_archive_remove`. -/
def removeBlock (stored staging package : Bytes) : Op σ Unit := do
  stageAndRun calls (extractWithLabel calls package)
    (do
      work calls .verifyPackageIndex
      work calls .readPackageMetadata)
    (runPackageScript calls hasScript staging (str ".wpm\\remove.cmd"))
  plan calls (.phaseStart .removeRecord)
  work calls .deleteFile
  delete stored package
  plan calls (.phaseFinish .removeRecord)

/-- `wpm_archive_remove`. -/
def archiveRemove (packageName : Bytes) : Op σ Unit := do
  note (.began .remove)
  Cmd.guard (packageName.length < pathSize)
  let archiveName := stripZip packageName
  Cmd.guard (isValidPackageName archiveName = true)
  let root ← call calls.dataRoot
  let tempRoot ← Cmd.ofOption (joinPath root (str "temp"))
  let packageStore ← Cmd.ofOption (joinPath root (str "packages"))
  let staging ← Cmd.ofOption (joinPath tempRoot archiveName)
  Cmd.guard (archiveName.length + 4 < pathSize)
  let stored ← Cmd.ofOption (joinPath packageStore (archiveName ++ str ".zip"))
  let s ← Cmd.get
  let package ← Cmd.ofOption (s.store (fold stored))
  work calls .fileExists
  plan calls (.archive .remove stored none true)
  let collecting ← call calls.collecting
  if collecting then pure ()
  else do
    plan calls (.phaseStart .stage)
    work calls .createDirectories
    removeStaging calls
    withCleanup calls (removeBlock calls hasScript stored staging package)

end Operations

/-! ### Runs -/

/-- A call of one of the operations. -/
inductive Operation
  | install (path package : Bytes) (allowUnsigned : Bool)
  | upgrade (path package oldVersion : Bytes) (allowUnsigned : Bool)
  | remove (packageName : Bytes)

def Operation.op (calls : Calls σ) (hasScript : Bytes → Bytes → Bool) : Operation → Op σ Unit
  | .install path package allowUnsigned =>
    archiveInstall calls hasScript path package allowUnsigned
  | .upgrade path package oldVersion allowUnsigned =>
    archiveUpgrade calls hasScript path package oldVersion allowUnsigned
  | .remove packageName => archiveRemove calls hasScript packageName

/-- The site after the operations, each called whether or not the one before it failed. -/
def run (calls : Calls σ) (hasScript : Bytes → Bytes → Bool) (l : List Operation)
    (s : Site σ) : Site σ :=
  (l.map (Operation.op calls hasScript)).foldl (fun s c => (c s).2) s

/-- A site on which nothing was done yet. -/
def Site.start (store : Bytes → Option Bytes) (world : σ) : Site σ := ⟨⟨store, none, []⟩, world⟩

/-! ### What speaks for a change -/

/-- **The package may be retained or dropped**: since the operation began its archive was staged,
and the script has then exited with zero, or the package has none. `ran` tells that a later event
is an exit with zero. -/
def Cleared (hasScript : Bytes → Bytes → Bool) (package script : Bytes) : Bool → List Event → Prop
  | ran, .staged p :: _ => p = package ∧ (ran = true ∨ hasScript package script = false)
  | _, .exited s code :: older => s = script ∧ code = 0 ∧ Cleared hasScript package script true older
  | ran, .overlooked :: older => Cleared hasScript package script ran older
  | ran, .replaced _ _ _ :: older => Cleared hasScript package script ran older
  | ran, .deleted _ _ :: older => Cleared hasScript package script ran older
  | _, .began _ :: _ => False
  | _, [] => False

/-- An event that the events before it allow: an archive is created or replaced, or deleted, after
its package is cleared. -/
def Allowed (hasScript : Bytes → Bytes → Bool) : Event → List Event → Prop
  | .replaced _ package _, older =>
    Cleared hasScript package (str ".wpm\\install.cmd") false older
  | .deleted _ package, older => Cleared hasScript package (str ".wpm\\remove.cmd") false older
  | _, _ => True

/-- The store that the events make of the one there was before them. -/
def replay (store : Bytes → Option Bytes) : List Event → Bytes → Option Bytes
  | [] => store
  | .replaced path _ left :: older => Function.update (replay store older) (fold path) left
  | .deleted path _ :: older => Function.update (replay store older) (fold path) none
  | _ :: older => replay store older

/-- **The store changes after the script only**, and by nothing that is not on the log. -/
structure Retained (hasScript : Bytes → Bytes → Bool) (store : Bytes → Option Bytes)
    (v : View) : Prop where
  history : History (Allowed hasScript) v.log
  store_eq : v.store = replay store v.log

/-- The script of the operation. -/
def Operation.script : Operation → Bytes
  | .install _ _ _ => str ".wpm\\install.cmd"
  | .upgrade _ _ _ _ => str ".wpm\\install.cmd"
  | .remove _ => str ".wpm\\remove.cmd"

/-- The operation that was called last came to where its package is cleared by its script. -/
def CameToClear (hasScript : Bytes → Bytes → Bool) (script : Bytes) (log : List Event) : Prop :=
  ∃ package, Cleared hasScript package script false log

/-! ### What is known at each point of an operation -/

section Points

variable (hasScript : Bytes → Bytes → Bool) (store₀ store : Bytes → Option Bytes)

/-- Nothing was changed yet by the operation, which found the store as it is. -/
def Waiting (v : View) : Prop :=
  .overlooked ∈ v.log ∨ Retained hasScript store₀ v ∧ v.store = store

/-- The package was staged last. -/
def Staged (package : Bytes) (v : View) : Prop :=
  .overlooked ∈ v.log ∨ (Retained hasScript store₀ v ∧ v.store = store ∧
    v.staged = some package ∧ ∃ older, v.log = .staged package :: older)

/-- The script has exited. -/
def Exited (package script : Bytes) (code : ℕ) (v : View) : Prop :=
  .overlooked ∈ v.log ∨ (Retained hasScript store₀ v ∧ v.store = store ∧
    ∃ older, v.log = .exited script code :: .staged package :: older)

/-- The package is cleared, and nothing was changed yet. -/
def Ready (package script : Bytes) (v : View) : Prop :=
  .overlooked ∈ v.log ∨ (Retained hasScript store₀ v ∧ v.store = store ∧
    Cleared hasScript package script false v.log)

/-- What holds when the operation is over. -/
def Over (script : Bytes) (v : View) : Prop :=
  .overlooked ∈ v.log ∨ Retained hasScript store₀ v ∧
    (v.store = store ∨ CameToClear hasScript script v.log)

end Points

variable {calls : Calls σ} {hasScript : Bytes → Bytes → Bool}
  {store₀ store : Bytes → Option Bytes} {package script : Bytes} {code : ℕ} {v : View}

lemma Staged.waiting (h : Staged hasScript store₀ store package v) :
    Waiting hasScript store₀ store v := h.imp_right fun h => ⟨h.1, h.2.1⟩

lemma Exited.waiting (h : Exited hasScript store₀ store package script code v) :
    Waiting hasScript store₀ store v := h.imp_right fun h => ⟨h.1, h.2.1⟩

lemma Ready.waiting (h : Ready hasScript store₀ store package script v) :
    Waiting hasScript store₀ store v := h.imp_right fun h => ⟨h.1, h.2.1⟩

lemma Waiting.over (h : Waiting hasScript store₀ store v) : Over hasScript store₀ store script v :=
  h.imp_right fun h => ⟨h.1, Or.inl h.2⟩

lemma Waiting.clearStaging (h : Waiting hasScript store₀ store v) :
    Waiting hasScript store₀ store { v with staged := none } :=
  h.imp_right fun h => ⟨⟨h.1.history, h.1.store_eq⟩, h.2⟩

lemma Over.clearStaging (h : Over hasScript store₀ store script v) :
    Over hasScript store₀ store script { v with staged := none } :=
  h.imp_right fun h => ⟨⟨h.1.history, h.1.store_eq⟩, h.2⟩

/-- A script that exits with zero clears its package. -/
lemma Exited.ready (h : Exited hasScript store₀ store package script 0 v) :
    Ready hasScript store₀ store package script v := by
  rcases h with h | ⟨hret, hstore, older, hlog⟩
  · exact Or.inl h
  · refine Or.inr ⟨hret, hstore, ?_⟩
    rw [hlog]
    exact ⟨rfl, rfl, rfl, Or.inl rfl⟩

/-- So does a package without a script. -/
lemma Staged.ready (h : Staged hasScript store₀ store package v)
    (hnone : hasScript package script = false) :
    Ready hasScript store₀ store package script v := by
  rcases h with h | ⟨hret, hstore, -, older, hlog⟩
  · exact Or.inl h
  · refine Or.inr ⟨hret, hstore, ?_⟩
    rw [hlog]
    exact ⟨rfl, Or.inr hnone⟩

/-! ### The steps -/

/-- **What is left to the rest of the world changes nothing in view.** -/
lemma call_keeps {α : Type} {P : View → Prop} (c : Cmd σ α) :
    Keeps (fun s : Site σ => P s.toView) (call c) := by
  intro s hs
  refine ⟨fun a s' h => ?_, fun s' h => ?_⟩ <;> rw [← (Prod.mk.inj h).2] <;> exact hs

lemma call_attempt_keeps {α : Type} {P : View → Prop} (c : Cmd σ α) :
    Keeps (fun s : Site σ => P s.toView) (call c).attempt := by
  refine (Triple.attempt (call_keeps c)).post ?_
  rintro (_ | _) s hs
  · exact hs
  · exact hs.elim fun _ h => h

lemma orAudit_triple {P : View → Prop} {Q : Unit → Site σ → Prop} {E : View → Prop}
    {c : Op σ Unit} (h : Triple (fun s => P s.toView) c Q fun s => E s.toView) :
    Triple (fun s => P s.toView) (orAudit calls c) Q fun s => E s.toView := by
  refine h.onFail ?_
  exact (call_attempt_keeps _).bind fun _ => Triple.pure fun _ hs => hs

lemma extractWithLabel_triple :
    Triple (fun s : Site σ => Waiting hasScript store₀ store s.toView)
      (extractWithLabel calls package)
      (fun _ s => Staged hasScript store₀ store package s.toView)
      fun s => Waiting hasScript store₀ store s.toView := by
  refine Triple.bind (call_keeps _) fun _ => Triple.bind (call_keeps _) fun _ => ?_
  refine Triple.modify fun s hs => ?_
  rcases hs with hs | ⟨hret, hstore⟩
  · exact Or.inl (List.mem_cons_of_mem _ hs)
  · exact Or.inr ⟨⟨.cons trivial hret.history, hret.store_eq⟩, hstore, rfl, s.log, rfl⟩

/-- Looking for the script finds it only if it is there, and overlooks it only if its attributes
cannot be read. -/
lemma scriptExists_triple :
    Triple (fun s : Site σ => Staged hasScript store₀ store package s.toView)
      (scriptExists calls hasScript script)
      (fun found s => if found then Staged hasScript store₀ store package s.toView
        else Ready hasScript store₀ store package script s.toView)
      fun s => Waiting hasScript store₀ store s.toView := by
  refine Triple.bind ((call_keeps _).weaken (fun _ h => h) (fun _ _ h => h)
    fun _ h => Staged.waiting h) fun readable => ?_
  refine Triple.get_bind fun s hs => ?_
  have hover : ∀ {e : Event}, .overlooked ∈ s.log → .overlooked ∈ e :: s.log :=
    List.mem_cons_of_mem _
  split_ifs with hnone hreadable
  · refine Triple.pure ?_
    rintro _ rfl
    rcases hs with hs | ⟨hret, hstore, hstaged, hlog⟩
    · exact Or.inl hs
    · rw [hstaged, Option.any_some] at hnone
      exact Staged.ready (Or.inr ⟨hret, hstore, hstaged, hlog⟩) hnone
  · exact Triple.pure fun t ht => ht ▸ hs
  · refine Triple.bind (Q := fun _ t => Event.overlooked ∈ t.log) ?_ fun _ => ?_
    · refine Triple.modify ?_
      rintro _ rfl
      exact List.mem_cons_self
    · exact Triple.pure fun t ht => Or.inl ht

/-- **The script.** It comes to its end only when the package is cleared. -/
lemma runPackageScript_triple {staging : Bytes} :
    Triple (fun s : Site σ => Staged hasScript store₀ store package s.toView)
      (runPackageScript calls hasScript staging script)
      (fun _ s => Ready hasScript store₀ store package script s.toView)
      fun s => Waiting hasScript store₀ store s.toView := by
  have hcall : ∀ {α : Type} (c : Cmd σ α),
      Triple (fun s : Site σ => Staged hasScript store₀ store package s.toView) (call c)
        (fun _ s => Staged hasScript store₀ store package s.toView)
        fun s => Waiting hasScript store₀ store s.toView := fun c =>
    (call_keeps c).weaken (fun _ h => h) (fun _ _ h => h) fun _ h => Staged.waiting h
  refine (hcall _).bind fun _ => (hcall _).bind fun _ => ?_
  refine Triple.bind (Triple.ofOption (fun _ _ _ h => h) fun _ _ h => Staged.waiting h)
    fun scriptPath => ?_
  refine scriptExists_triple.bind fun found => ?_
  cases found with
  | false =>
    exact (call_keeps _).weaken (fun _ h => h) (fun _ _ h => h) fun _ h => Ready.waiting h
  | true =>
    refine (hcall _).bind fun _ => ?_
    refine Triple.bind (Q := fun _ s => Staged hasScript store₀ store package s.toView)
      (Triple.guard (fun _ _ h => h) fun _ _ h => Staged.waiting h) fun _ => ?_
    refine (hcall _).bind fun _ => (hcall _).bind fun _ => (hcall _).bind fun _ => ?_
    refine (hcall _).bind fun code => ?_
    have hexit : ∀ {α : Type} (c : Cmd σ α),
        Triple (fun s : Site σ => Exited hasScript store₀ store package script code s.toView)
          (call c) (fun _ s => Exited hasScript store₀ store package script code s.toView)
          fun s => Waiting hasScript store₀ store s.toView := fun c =>
      (call_keeps c).weaken (fun _ h => h) (fun _ _ h => h) fun _ h => Exited.waiting h
    refine Triple.bind (Triple.modify fun s hs => ?_) fun _ => (hexit _).bind fun _ => ?_
    · rcases hs with hs | ⟨hret, hstore, -, older, hlog⟩
      · exact Or.inl (List.mem_cons_of_mem _ hs)
      · exact Or.inr ⟨⟨.cons trivial hret.history, hret.store_eq⟩, hstore, older, by rw [hlog]⟩
    · refine Triple.guard ?_ fun _ _ h => Exited.waiting h
      rintro rfl s hs
      exact Exited.ready hs

/-- **A change of the store**, which the package is cleared for. -/
lemma Ready.change {e : Event} {store' : Bytes → Option Bytes}
    (h : Ready hasScript store₀ store package script v)
    (hcleared : ∀ older, Cleared hasScript package script false older →
      Allowed hasScript e older ∧ Cleared hasScript package script false (e :: older))
    (hstore : v.store = replay store₀ v.log → store' = replay store₀ (e :: v.log)) :
    Over hasScript store₀ store script { v with store := store', log := e :: v.log } := by
  rcases h with h | ⟨hret, -, hclear⟩
  · exact Or.inl (List.mem_cons_of_mem _ h)
  · obtain ⟨hallowed, hclear⟩ := hcleared _ hclear
    exact Or.inr ⟨⟨.cons hallowed hret.history, hstore hret.store_eq⟩,
      Or.inr ⟨package, hclear⟩⟩

lemma replace_triple {path : Bytes} {left : Option Bytes} {E : Site σ → Prop} :
    Triple (fun s : Site σ =>
        Ready hasScript store₀ store package (str ".wpm\\install.cmd") s.toView)
      (replace path package left) (fun _ s => Over hasScript store₀ store (str ".wpm\\install.cmd") s.toView) E :=
  Triple.modify fun _ hs => Ready.change hs (fun _ hc => ⟨hc, hc⟩) fun h => by rw [h, replay]

lemma delete_triple {path : Bytes} {E : Site σ → Prop} :
    Triple (fun s : Site σ =>
        Ready hasScript store₀ store package (str ".wpm\\remove.cmd") s.toView)
      (delete path package) (fun _ s => Over hasScript store₀ store (str ".wpm\\remove.cmd") s.toView) E :=
  Triple.modify fun _ hs => Ready.change hs (fun _ hc => ⟨hc, hc⟩) fun h => by rw [h, replay]

/-- **Storing the archive.** -/
lemma archiveStoreInput_triple {source destination : Bytes} :
    Triple (fun s : Site σ =>
        Ready hasScript store₀ store package (str ".wpm\\install.cmd") s.toView)
      (archiveStoreInput calls source destination package)
      (fun _ s => Over hasScript store₀ store (str ".wpm\\install.cmd") s.toView)
      fun s => Over hasScript store₀ store (str ".wpm\\install.cmd") s.toView := by
  have hcall : ∀ {α : Type} (c : Cmd σ α),
      Triple (fun s : Site σ =>
          Ready hasScript store₀ store package (str ".wpm\\install.cmd") s.toView) (call c)
        (fun _ s => Ready hasScript store₀ store package (str ".wpm\\install.cmd") s.toView)
        fun s => Over hasScript store₀ store (str ".wpm\\install.cmd") s.toView := fun c =>
    (call_keeps c).weaken (fun _ h => h) (fun _ _ h => h) fun _ h => (Ready.waiting h).over
  refine (hcall _).bind fun active => Triple.ite (fun _ => ?_) fun _ => Triple.ite (fun _ => ?_) ?_
  · refine (hcall _).bind fun _ => (hcall _).bind fun _ => replace_triple.bind fun _ => ?_
    exact call_keeps _
  · refine (hcall _).bind fun copied => ?_
    cases copied with
    | whole => exact replace_triple
    | failed left => exact replace_triple.bind fun _ => Triple.fail fun _ h => h
  · exact fun _ => Triple.pure fun _ h => (Ready.waiting h).over

/-! ### The operations -/

/-- The label `cleanup` changes nothing in the store. -/
lemma finish_keeps {success : Bool} :
    Keeps (fun s : Site σ => Over hasScript store₀ store script s.toView) (finish calls success) := by
  have hstart : Keeps (fun s : Site σ => Over hasScript store₀ store script s.toView)
      (startCleanup calls success) :=
    Triple.ite (fun _ => call_keeps _) fun _ => Triple.pure fun _ h => h
  have hremove : Keeps (fun s : Site σ => Over hasScript store₀ store script s.toView)
      (removeStaging calls).attempt := by
    refine (Triple.attempt (Keeps.bind (Triple.modify fun s hs => ?_) fun _ => call_keeps _)).post ?_
    · exact Over.clearStaging hs
    · rintro (_ | _) s hs
      · exact hs
      · exact hs.elim fun _ h => h
  exact hstart.bind fun _ => hremove.bind fun _ => Keeps.guard.bind fun _ =>
    (call_keeps _).bind fun _ => call_keeps _

lemma withCleanup_keeps {block : Op σ Unit}
    (h : Triple (fun s => Waiting hasScript store₀ store s.toView) block
      (fun _ s => Over hasScript store₀ store script s.toView)
      fun s => Over hasScript store₀ store script s.toView) :
    Triple (fun s => Waiting hasScript store₀ store s.toView) (withCleanup calls block)
      (fun _ s => Over hasScript store₀ store script s.toView)
      fun s => Over hasScript store₀ store script s.toView := by
  refine Triple.bind ((Triple.attempt h).post ?_) fun _ => finish_keeps
  rintro (_ | _) s hs
  · exact hs
  · exact hs.elim fun _ h => h

/-- A step before anything was changed. -/
lemma waiting_call {α : Type} (c : Cmd σ α) :
    Triple (fun s : Site σ => Waiting hasScript store₀ store s.toView) (call c)
      (fun _ s => Waiting hasScript store₀ store s.toView)
      fun s => Over hasScript store₀ store script s.toView :=
  (call_keeps c).weaken (fun _ h => h) (fun _ _ h => h) fun _ h => Waiting.over h

lemma waiting_guard {p : Prop} [Decidable p] :
    Triple (fun s : Site σ => Waiting hasScript store₀ store s.toView) (Cmd.guard p)
      (fun _ s => Waiting hasScript store₀ store s.toView)
      fun s => Over hasScript store₀ store script s.toView :=
  Triple.guard (fun _ _ h => h) fun _ _ h => Waiting.over h

lemma waiting_ofOption {α : Type} {o : Option α} :
    Triple (fun s : Site σ => Waiting hasScript store₀ store s.toView) (Cmd.ofOption o)
      (fun _ s => Waiting hasScript store₀ store s.toView)
      fun s => Over hasScript store₀ store script s.toView :=
  Triple.ofOption (fun _ _ _ h => h) fun _ _ h => Waiting.over h

lemma waiting_removeStaging :
    Triple (fun s : Site σ => Waiting hasScript store₀ store s.toView) (removeStaging calls)
      (fun _ s => Waiting hasScript store₀ store s.toView)
      fun s => Over hasScript store₀ store script s.toView :=
  Triple.bind (Q := fun _ s => Waiting hasScript store₀ store s.toView)
    (Triple.modify fun _ hs => Waiting.clearStaging hs) fun _ => waiting_call _

/-- **From the extraction to the script**, after which the package is cleared. -/
lemma stageAndRun_triple {extracting checks running : Op σ Unit}
    (hextract : Triple (fun s => Waiting hasScript store₀ store s.toView) extracting
      (fun _ s => Staged hasScript store₀ store package s.toView)
      fun s => Waiting hasScript store₀ store s.toView)
    (hchecks : Keeps (fun s => Staged hasScript store₀ store package s.toView) checks)
    (hrun : Triple (fun s => Staged hasScript store₀ store package s.toView) running
      (fun _ s => Ready hasScript store₀ store package script s.toView)
      fun s => Waiting hasScript store₀ store s.toView) :
    Triple (fun s => Waiting hasScript store₀ store s.toView)
      (stageAndRun calls extracting checks running)
      (fun _ s => Ready hasScript store₀ store package script s.toView)
      fun s => Over hasScript store₀ store script s.toView := by
  have hstaged : ∀ {c : Op σ Unit}, Keeps (fun s => Staged hasScript store₀ store package s.toView) c →
      Triple (fun s => Staged hasScript store₀ store package s.toView) c
        (fun _ s => Staged hasScript store₀ store package s.toView)
        fun s => Over hasScript store₀ store script s.toView := fun h =>
    h.weaken (fun _ h => h) (fun _ _ h => h) fun _ h => (Staged.waiting h).over
  refine (waiting_call _).bind fun _ => (waiting_call _).bind fun _ => ?_
  refine (hextract.weaken (fun _ h => h) (fun _ _ h => h) fun _ h => Waiting.over h).bind
    fun _ => ?_
  refine (hstaged (call_keeps _)).bind fun _ => (hstaged (call_keeps _)).bind fun _ => ?_
  refine (hstaged hchecks).bind fun _ => (hstaged (call_keeps _)).bind fun _ => ?_
  exact hrun.weaken (fun _ h => h) (fun _ _ h => h) fun _ h => Waiting.over h

/-- What follows the script in an operation that retains its archive. -/
lemma retain_triple {storing : Op σ Unit} {audit : Work}
    (hstore : Triple (fun s : Site σ =>
        Ready hasScript store₀ store package (str ".wpm\\install.cmd") s.toView) storing
      (fun _ s => Over hasScript store₀ store (str ".wpm\\install.cmd") s.toView)
      fun s => Over hasScript store₀ store (str ".wpm\\install.cmd") s.toView) :
    Triple (fun s : Site σ =>
        Ready hasScript store₀ store package (str ".wpm\\install.cmd") s.toView)
      (do
        plan calls (.phaseStart .retainArchive)
        storing
        plan calls (.phaseFinish .retainArchive)
        plan calls (.phaseStart .audit)
        let _ ← (work calls .recordArchiveRepository).attempt
        work calls audit
        plan calls (.phaseFinish .audit))
      (fun _ s => Over hasScript store₀ store (str ".wpm\\install.cmd") s.toView)
      fun s => Over hasScript store₀ store (str ".wpm\\install.cmd") s.toView := by
  refine Triple.bind ((call_keeps _).weaken (fun _ h => h) (fun _ _ h => h)
    fun _ h => (Ready.waiting h).over) fun _ => hstore.bind fun _ => ?_
  refine Keeps.bind (call_keeps _) fun _ => Keeps.bind (call_keeps _) fun _ => ?_
  exact (call_attempt_keeps _).bind fun _ => Keeps.bind (call_keeps _) fun _ => call_keeps _

lemma installBlock_triple {full staging stored : Bytes} :
    Triple (fun s : Site σ => Waiting hasScript store₀ store s.toView)
      (installBlock calls hasScript full staging stored package)
      (fun _ s => Over hasScript store₀ store (str ".wpm\\install.cmd") s.toView)
      fun s => Over hasScript store₀ store (str ".wpm\\install.cmd") s.toView := by
  refine Triple.bind (stageAndRun_triple extractWithLabel_triple ?_ runPackageScript_triple)
    fun _ => retain_triple archiveStoreInput_triple
  exact Keeps.bind (call_keeps _) fun _ => Keeps.bind (call_keeps _) fun _ =>
    Keeps.bind (call_keeps _) fun _ => call_keeps _

lemma upgradeBlock_triple {full stage stored : Bytes} :
    Triple (fun s : Site σ => Waiting hasScript store₀ store s.toView)
      (upgradeBlock calls hasScript full stage stored package)
      (fun _ s => Over hasScript store₀ store (str ".wpm\\install.cmd") s.toView)
      fun s => Over hasScript store₀ store (str ".wpm\\install.cmd") s.toView := by
  have hcheck : ∀ k, Keeps (fun s : Site σ => Staged hasScript store₀ store package s.toView)
      (orAudit calls (work calls k)) := fun k => orAudit_triple (call_keeps _)
  refine Triple.bind (stageAndRun_triple (orAudit_triple extractWithLabel_triple) ?_
    (orAudit_triple runPackageScript_triple)) fun _ =>
      retain_triple (orAudit_triple archiveStoreInput_triple)
  exact (hcheck _).bind fun _ => (hcheck _).bind fun _ => (hcheck _).bind fun _ =>
    (hcheck _).bind fun _ => hcheck _

lemma removeBlock_triple {stored staging : Bytes} :
    Triple (fun s : Site σ => Waiting hasScript store₀ store s.toView)
      (removeBlock calls hasScript stored staging package)
      (fun _ s => Over hasScript store₀ store (str ".wpm\\remove.cmd") s.toView)
      fun s => Over hasScript store₀ store (str ".wpm\\remove.cmd") s.toView := by
  have hready : ∀ {α : Type} (c : Cmd σ α), Triple (fun s : Site σ =>
      Ready hasScript store₀ store package (str ".wpm\\remove.cmd") s.toView) (call c)
        (fun _ s => Ready hasScript store₀ store package (str ".wpm\\remove.cmd") s.toView)
        fun s => Over hasScript store₀ store (str ".wpm\\remove.cmd") s.toView := fun c =>
    (call_keeps c).weaken (fun _ h => h) (fun _ _ h => h) fun _ h => (Ready.waiting h).over
  refine Triple.bind (stageAndRun_triple extractWithLabel_triple ?_ runPackageScript_triple)
    fun _ => ?_
  · exact Keeps.bind (call_keeps _) fun _ => call_keeps _
  · exact (hready _).bind fun _ => (hready _).bind fun _ => delete_triple.bind fun _ =>
      call_keeps _

/-- **Every operation** leaves the store as it was, or came to where its package is cleared. -/
theorem Operation.op_triple (o : Operation) :
    Triple (fun s : Site σ => (.overlooked ∈ s.log ∨ Retained hasScript store₀ s.toView) ∧
        s.store = store)
      (o.op calls hasScript) (fun _ s => Over hasScript store₀ store o.script s.toView)
      fun s => Over hasScript store₀ store o.script s.toView := by
  have hbegan : ∀ action, Triple (fun s : Site σ =>
      (.overlooked ∈ s.log ∨ Retained hasScript store₀ s.toView) ∧ s.store = store)
      (note (.began action)) (fun _ s => Waiting hasScript store₀ store s.toView)
      fun s => Over hasScript store₀ store o.script s.toView := by
    refine fun action => Triple.modify fun s hs => ?_
    rcases hs with ⟨hs | hret, hstore⟩
    · exact Or.inl (List.mem_cons_of_mem _ hs)
    · exact Or.inr ⟨⟨.cons trivial hret.history, hret.store_eq⟩, hstore⟩
  have hnothing : Triple (fun s : Site σ => Waiting hasScript store₀ store s.toView) (pure ())
      (fun _ s => Over hasScript store₀ store o.script s.toView)
      fun s => Over hasScript store₀ store o.script s.toView := Triple.pure fun _ h => Waiting.over h
  cases o with
  | install path package allowUnsigned =>
    refine (hbegan _).bind fun _ => (waiting_call _).bind fun _ => (waiting_call _).bind fun _ =>
      Triple.ite (fun _ => hnothing) fun _ => ?_
    refine (waiting_call _).bind fun full => waiting_guard.bind fun _ => ?_
    refine Triple.bind ((call_attempt_keeps _).weaken (fun _ h => h) (fun _ _ h => h)
      fun _ h => Waiting.over h) fun _ => ?_
    refine (waiting_call _).bind fun _ => (waiting_call _).bind fun _ =>
      waiting_ofOption.bind fun _ => waiting_ofOption.bind fun _ =>
      waiting_ofOption.bind fun _ => waiting_ofOption.bind fun _ => ?_
    refine (waiting_call _).bind fun _ => (waiting_call _).bind fun _ =>
      waiting_removeStaging.bind fun _ => ?_
    exact withCleanup_keeps installBlock_triple
  | upgrade path package oldVersion allowUnsigned =>
    refine (hbegan _).bind fun _ => (waiting_call _).bind fun _ => (waiting_call _).bind fun _ =>
      Triple.ite (fun _ => hnothing) fun _ => ?_
    refine (waiting_call _).bind fun full => (waiting_call _).bind fun _ =>
      (waiting_call _).bind fun _ => (waiting_call _).bind fun _ =>
      waiting_ofOption.bind fun _ => waiting_ofOption.bind fun _ =>
      waiting_ofOption.bind fun _ => waiting_ofOption.bind fun _ => ?_
    refine (waiting_call _).bind fun _ => waiting_removeStaging.bind fun _ => ?_
    exact withCleanup_keeps upgradeBlock_triple
  | remove packageName =>
    refine (hbegan _).bind fun _ => waiting_guard.bind fun _ => waiting_guard.bind fun _ => ?_
    refine (waiting_call _).bind fun _ => waiting_ofOption.bind fun _ =>
      waiting_ofOption.bind fun _ => waiting_ofOption.bind fun _ => waiting_guard.bind fun _ =>
      waiting_ofOption.bind fun _ => Triple.get_bind fun s hs => ?_
    refine Triple.from_state (P := fun s => Waiting hasScript store₀ store s.toView) ?_ hs
    refine waiting_ofOption.bind fun package => (waiting_call _).bind fun _ =>
      (waiting_call _).bind fun _ => (waiting_call _).bind fun _ =>
      Triple.ite (fun _ => hnothing) fun _ => ?_
    refine (waiting_call _).bind fun _ => (waiting_call _).bind fun _ =>
      waiting_removeStaging.bind fun _ => ?_
    exact withCleanup_keeps removeBlock_triple

/-! ### Runs of the operations -/

lemma run_concat (l : List Operation) (o : Operation) (s : Site σ) :
    run calls hasScript (l ++ [o]) s = (o.op calls hasScript (run calls hasScript l s)).2 := by
  simp [run]

/-- What is overlooked stays on the log. -/
lemma Over.retained (h : Over hasScript store₀ store script v) :
    .overlooked ∈ v.log ∨ Retained hasScript store₀ v := h.imp_right fun h => h.1

lemma run_retained_or (w : σ) (l : List Operation) :
    .overlooked ∈ (run calls hasScript l (Site.start store₀ w)).log ∨
      Retained hasScript store₀ (run calls hasScript l (Site.start store₀ w)).toView := by
  induction l using List.reverseRecOn with
  | nil => exact Or.inr ⟨.nil, rfl⟩
  | append_singleton l o ih =>
    rw [run_concat]
    exact (o.op_triple.left ⟨ih, rfl⟩ : Over hasScript store₀ _ o.script _).retained

/-- **The retained store changes only after the script has succeeded**, in every run of the
operations, planned or not, in which no script that a package has is overlooked: whatever fails, an
archive is created, replaced or deleted only when its own package is cleared, and an operation that
does not come to clear its package, by its own script, leaves the store as it was. -/
theorem run_retained (calls : Calls σ) (hasScript : Bytes → Bytes → Bool)
    (store : Bytes → Option Bytes) (w : σ) (l : List Operation) (o : Operation)
    (h : Event.overlooked ∉ (run calls hasScript (l ++ [o]) (Site.start store w)).log) :
    Retained hasScript store (run calls hasScript (l ++ [o]) (Site.start store w)).toView ∧
      (¬CameToClear hasScript o.script (run calls hasScript (l ++ [o]) (Site.start store w)).log →
        (run calls hasScript (l ++ [o]) (Site.start store w)).store =
          (run calls hasScript l (Site.start store w)).store) := by
  rw [run_concat] at h ⊢
  have hover : Over hasScript store (run calls hasScript l (Site.start store w)).store o.script
      (o.op calls hasScript (run calls hasScript l (Site.start store w))).2.toView :=
    o.op_triple.left ⟨run_retained_or w l, rfl⟩
  obtain ⟨hret, hchange⟩ := hover.resolve_left h
  exact ⟨hret, fun hnot => hchange.resolve_right hnot⟩

/-! ### An overlooked script -/

/-- Calls that succeed, without a plan, with a script that exits with a code. -/
def sampleCalls (readable : Bool) (exitCode : ℕ) : Calls Unit where
  dataRoot := pure (str "C:\\wpm")
  fullPath path := pure path
  work _ := pure ()
  plan _ := pure ()
  collecting := pure false
  active := pure false
  storeName name := pure name
  readable := pure readable
  exitCode := pure exitCode
  copyFile := pure .whole

/-- An archive with an installation script. -/
def sampleScripts (package script : Bytes) : Bool :=
  package = str "PK" && script = str ".wpm\\install.cmd"

def sampleInstall : Operation := .install (str "C:\\new\\tool.zip") (str "PK") true

def sampleRun (readable : Bool) (exitCode : ℕ) : Site Unit :=
  run (sampleCalls readable exitCode) sampleScripts ([] ++ [sampleInstall])
    (Site.start (fun _ => none) ())

/-- The script exits with zero, or with three. -/
theorem run_retained_sample :
    Retained sampleScripts (fun _ => none) (sampleRun true 0).toView ∧
      (sampleRun true 3).store = fun _ => none := by
  refine ⟨(run_retained (sampleCalls true 0) sampleScripts (fun _ => none) () [] sampleInstall
    (by decide)).1, (run_retained (sampleCalls true 3) sampleScripts (fun _ => none) () []
      sampleInstall (by decide)).2 ?_⟩
  rintro ⟨package, hcleared⟩
  have hlog : (sampleRun true 3).log =
      [.exited (str ".wpm\\install.cmd") 3, .staged (str "PK"), .began .install] := by decide
  rw [show (run (sampleCalls true 3) sampleScripts ([] ++ [sampleInstall])
    (Site.start (fun _ => none) ())).log = _ from hlog] at hcleared
  exact absurd hcleared.2.1 (by decide)

/-- A script whose attributes cannot be read is taken for none, and the archive is retained. -/
theorem overlooked_retains : ¬Retained sampleScripts (fun _ => none) (sampleRun false 0).toView := by
  intro h
  have hlog : (sampleRun false 0).log =
      [.replaced (str "C:\\wpm\\packages\\tool.zip") (str "PK") (some (str "PK")), .overlooked,
        .staged (str "PK"), .began .install] := by decide
  have hhistory := h.history
  rw [hlog] at hhistory
  cases hhistory with
  | cons hallowed _ =>
    rcases hallowed.2 with hran | hnone
    · exact Bool.false_ne_true hran
    · exact absurd hnone (by decide)

end Wpm.Archive.Retention
