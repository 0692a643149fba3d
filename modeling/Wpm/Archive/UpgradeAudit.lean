import Wpm.Archive.Metadata

/-!
The audits that an upgrade leaves behind when it fails.

An upgrade starts out with the identity that it is asked for. Once it reads the metadata of the
staged package, it goes on with what that puts into the buffers, also when the reading fails.
-/

namespace Wpm.Archive

open Wpm.Lib.CString Wpm.Lib.Text Wpm.Operation

/-! ### The buffers of the metadata -/

/-- The loop of `read_package_metadata`: whether it comes to its end, and the buffers it leaves. -/
def bufferSettings : List Bytes → PackageMetadata → Bool × PackageMetadata
  | [], m => (true, m)
  | line :: lines, m =>
    match lineSetting line with
    | none => bufferSettings lines m
    | some (key, value) =>
      match applySetting m key value with
      | none => (false, m)
      | some m => bufferSettings lines m

/-- `read_package_metadata`, of what can be read of the file, if it can be opened: whether it
succeeds, and the buffers it leaves. -/
def stagedMetadata (file : Option Bytes) (readError : Bool) : Bool × PackageMetadata :=
  match file with
  | none => (false, ⟨[], [], [], false⟩)
  | some file =>
    let r := bufferSettings ((fgetsAll pathSize (textMode file)).map cstr) ⟨[], [], [], false⟩
    (r.1 && !readError && isSafeMetadataValue r.2.name && isSafeMetadataValue r.2.version &&
      isSafeMetadataValue r.2.arch, r.2)

/-- A setting that is taken, whatever was read before it. -/
def accepted (p : Bytes × Bytes) : Bool := (applySetting ⟨[], [], [], false⟩ p.1 p.2).isSome

/-- The settings on the lines that are read of a file, up to the first one that is refused. -/
def settingsRead (file : Bytes) : List (Bytes × Bytes) :=
  (((fgetsAll pathSize (textMode file)).map cstr).filterMap lineSetting).takeWhile accepted

/-- The value that the settings give a key last, or nothing. -/
def lastGiven (key : Bytes) (settings : List (Bytes × Bytes)) : Bytes :=
  ((settings.filter fun p => fold p.1 = key).getLast?.map Prod.snd).getD []

/-! ### The audit -/

/-- The arguments of `write_upgrade_audit`. -/
structure UpgradeAudit where
  metadata : PackageMetadata
  oldVersion : Bytes
  archive : Bytes
  signingKey : Bytes
  failed : Bool
  phase : Bytes
  exitCode : UInt32
  deriving DecidableEq

/-- The lines that `write_upgrade_audit` prints: keys and values. -/
def UpgradeAudit.lines (a : UpgradeAudit) : List (Bytes × Bytes) :=
  [(str "name", a.metadata.name), (str "arch", a.metadata.arch), (str "old-version", a.oldVersion),
    (str "new-version", a.metadata.version), (str "archive", a.archive),
    (str "signing-key", if a.signingKey ≠ [] then a.signingKey else str "unknown"),
    (str "verification", if a.failed then str "failed" else str "verified"),
    (str "status", if a.failed then str "failed" else str "upgraded")] ++
  if a.failed then
    [(str "phase", a.phase), (str "exit-code", decimal a.exitCode.toNat)]
  else []

/-- What `write_upgrade_audit` prints. -/
def UpgradeAudit.text (a : UpgradeAudit) : Bytes :=
  a.lines.flatMap fun p => p.1 ++ str "=" ++ p.2 ++ [10]

/-- How the calls to the file system go: `opens name` is whether there is a directory and a file in
it for the audit of a package of that name, and `arrives text` is what the file gets of a text, since
no result of `fprintf` is looked at. -/
structure AuditCalls where
  opens : Bytes → Bool
  arrives : Bytes → Bytes

/-- `write_upgrade_audit`: the file that it leaves, if it makes one. -/
def UpgradeAudit.write (h : AuditCalls) (a : UpgradeAudit) : Option Bytes :=
  if h.opens a.metadata.name then some (h.arrives a.text) else none

/-! ### The upgrades -/

/-- What an upgrade is asked for: by `wpm_archive_schedule_self_upgrade` if it is `self`, and by
`wpm_archive_upgrade` if it is not. The archive is known by its file name. -/
structure Upgrade where
  self : Bool
  name : Bytes
  version : Bytes
  arch : Bytes
  oldVersion : Bytes
  archive : Bytes

/-- The buffers that the upgrade starts with. -/
def Upgrade.expected (u : Upgrade) : PackageMetadata :=
  ⟨if u.self then str "wpm" else u.name, u.version, u.arch, false⟩

/-- What `wpm_validate_package_signature` gives for the key of a package that it accepts. -/
structure SigningKey where
  text : Bytes
  valid : text = str "unsigned" ∨
    text.length = 64 ∧ ∀ c ∈ text, c ∈ str "0123456789abcdef"

/-- How the steps of an upgrade go: `script` is the exit code of the install script when that
fails, and of each phase of the operation there is whether it can be recorded. -/
structure UpgradeSteps where
  extractStarts : Bool
  extracts : Bool
  validateStarts : Bool
  signature : Option SigningKey
  index : Bool
  staged : Option Bytes
  readError : Bool
  executable : Bool
  compatible : Bool
  validated : Bool
  script : Option UInt32
  retainStarts : Bool
  retains : Bool

/-- The metadata is not that of the package asked for. -/
def Upgrade.mismatch (u : Upgrade) (m : PackageMetadata) : Bool :=
  fold m.name ≠ fold u.expected.name || m.version ≠ u.version || fold m.arch ≠ fold u.arch

/-- The audit of a failure. -/
def Upgrade.failure (u : Upgrade) (m : PackageMetadata) (signingKey phase : Bytes)
    (exitCode : UInt32) : Option UpgradeAudit :=
  some ⟨m, u.oldVersion, u.archive, signingKey, true, phase, exitCode⟩

/-- The steps of `wpm_archive_upgrade` once the package is known to be the one asked for. -/
def Upgrade.installAudit (u : Upgrade) (s : UpgradeSteps) (m : PackageMetadata) (key : Bytes) :
    Option UpgradeAudit :=
  if s.compatible = false then u.failure m key (str "architecture") 0
  else if s.validated = false then none
  else match s.script with
    | some code => u.failure m key (str "install-script") code
    | none =>
      if s.retainStarts = false then none
      else if s.retains = false then u.failure m key (str "archive-retention") 0
      else none

/-- The audit of a failure that `wpm_archive_upgrade` leaves behind, after the stage is prepared. -/
def Upgrade.upgradeAudit (u : Upgrade) (s : UpgradeSteps) : Option UpgradeAudit :=
  if s.extractStarts = false then none
  else if s.extracts = false then u.failure u.expected [] (str "extraction") 0
  else if s.validateStarts = false then none
  else match s.signature with
    | none => u.failure u.expected [] (str "signature-validation") 0
    | some key =>
      if s.index = false then u.failure u.expected key.text (str "index-validation") 0
      else
        let m := (stagedMetadata s.staged s.readError).2
        if (stagedMetadata s.staged s.readError).1 = false then
          u.failure m key.text (str "metadata") 0
        else if u.mismatch m then u.failure m key.text (str "metadata") 0
        else u.installAudit s m key.text

/-- The audit of a failure that `wpm_archive_schedule_self_upgrade` leaves behind, after its
directories are prepared. -/
def Upgrade.selfUpgradeAudit (u : Upgrade) (s : UpgradeSteps) : Option UpgradeAudit :=
  if s.extracts = false then u.failure u.expected [] (str "self-upgrade-extraction") 0
  else match s.signature with
    | none => u.failure u.expected [] (str "self-upgrade-validation") 0
    | some key =>
      if s.index = false then u.failure u.expected key.text (str "self-upgrade-validation") 0
      else
        let m := (stagedMetadata s.staged s.readError).2
        if (stagedMetadata s.staged s.readError).1 = false then
          u.failure m key.text (str "self-upgrade-validation") 0
        else if u.mismatch m ∨ s.executable = false then
          u.failure m key.text (str "self-upgrade-metadata") 0
        else none

/-- The audit that a failure leaves behind. -/
def Upgrade.failureAudit (u : Upgrade) (s : UpgradeSteps) : Option UpgradeAudit :=
  if u.self then u.selfUpgradeAudit s else u.upgradeAudit s

/-- The upgrade comes to read the metadata of the staged package. -/
def UpgradeSteps.reads (s : UpgradeSteps) : Bool := s.extracts && s.signature.isSome && s.index

/-- The buffers of the metadata when a step fails. -/
def Upgrade.buffers (u : Upgrade) (s : UpgradeSteps) : PackageMetadata :=
  if s.reads then (stagedMetadata s.staged s.readError).2 else u.expected

/-! ### What an audit holds -/

variable {u : Upgrade} {s : UpgradeSteps} {a : UpgradeAudit}

/-- The buffers are filled as the reader of the staged metadata fills them. -/
lemma bufferSettings_eq_some {lines : List Bytes} {m m' : PackageMetadata} :
    bufferSettings lines m = (true, m') ↔ readSettings lines m = some m' := by
  induction lines generalizing m with
  | nil => simp [bufferSettings, readSettings]
  | cons line lines ih =>
    rw [bufferSettings, readSettings]
    cases lineSetting line with
    | none => exact ih
    | some p =>
      dsimp only
      cases applySetting m p.1 p.2 with
      | none => simp
      | some m => exact ih

/-- **The buffers of a success** are the metadata that the package has. -/
theorem stagedMetadata_iff {file : Bytes} {m : PackageMetadata} :
    stagedMetadata (some file) false = (true, m) ↔ readPackageMetadata file = some m := by
  have hsettings := @bufferSettings_eq_some ((fgetsAll pathSize (textMode file)).map cstr)
    ⟨[], [], [], false⟩
  rw [stagedMetadata, readPackageMetadata, metadataOf]
  cases hr : bufferSettings ((fgetsAll pathSize (textMode file)).map cstr)
      ⟨[], [], [], false⟩ with
  | mk ok m' =>
    cases ok with
    | true =>
      rw [hsettings.1 hr]
      simp only [Prod.mk.injEq, Bool.true_and, Bool.not_false, Option.bind_eq_bind,
        Option.bind_some, Option.ite_none_right_eq_some, Option.some.injEq]
    | false =>
      have hnone : readSettings ((fgetsAll pathSize (textMode file)).map cstr)
          ⟨[], [], [], false⟩ = none := by
        cases hread : readSettings ((fgetsAll pathSize (textMode file)).map cstr)
            ⟨[], [], [], false⟩ with
        | none => rfl
        | some m'' => exact absurd (hr.symm.trans (hsettings.2 hread)) (by simp)
      rw [hnone]
      simp

/-- The values in the buffers fit them. -/
structure PackageMetadata.Fits (m : PackageMetadata) : Prop where
  name : m.name.length < 128
  version : m.version.length < 64
  arch : m.arch.length < 64

lemma PackageMetadata.Fits.applySetting {m m' : PackageMetadata} {key value : Bytes} (h : m.Fits)
    (hset : applySetting m key value = some m') : m'.Fits := by
  unfold Archive.applySetting at hset
  split_ifs at hset
  · rw [← Option.some.inj hset]
    exact ⟨by simp only; omega, h.version, h.arch⟩
  · rw [← Option.some.inj hset]
    exact ⟨h.name, by simp only; omega, h.arch⟩
  · rw [← Option.some.inj hset]
    exact ⟨h.name, h.version, by simp only; omega⟩
  · obtain ⟨debug, -, rfl⟩ := Option.map_eq_some_iff.1 hset
    exact ⟨h.name, h.version, h.arch⟩
  · rw [← Option.some.inj hset]
    exact h

lemma PackageMetadata.Fits.bufferSettings (lines : List Bytes) {m : PackageMetadata} (h : m.Fits) :
    (bufferSettings lines m).2.Fits := by
  induction lines generalizing m with
  | nil => exact h
  | cons line lines ih =>
    rw [Archive.bufferSettings]
    cases lineSetting line with
    | none => exact ih h
    | some p =>
      dsimp only
      cases hset : Archive.applySetting m p.1 p.2 with
      | none => exact h
      | some m' => exact ih (h.applySetting hset)

/-- What is known of a field of the buffers that only the settings of a key change. -/
lemma bufferSettings_field {get : PackageMetadata → Bytes} {key : Bytes}
    (hset : ∀ {m m' : PackageMetadata} {p : Bytes × Bytes}, applySetting m p.1 p.2 = some m' →
      get m' = if fold p.1 = key then p.2 else get m) (lines : List Bytes) (m : PackageMetadata) :
    get (bufferSettings lines m).2 =
      ((((lines.filterMap lineSetting).takeWhile accepted).filter fun p =>
        fold p.1 = key).getLast?.map Prod.snd).getD (get m) := by
  induction lines generalizing m with
  | nil => rfl
  | cons line lines ih =>
    rw [bufferSettings]
    cases hs : lineSetting line with
    | none =>
      rw [List.filterMap_cons_none hs]
      exact ih m
    | some p =>
      rw [List.filterMap_cons_some hs]
      dsimp only
      cases ha : applySetting m p.1 p.2 with
      | none =>
        have hno : ¬accepted p = true := by
          rw [accepted, applySetting_eq_none ha]
          exact Bool.false_ne_true
        rw [List.takeWhile_cons_of_neg hno]
        rfl
      | some m' =>
        have hyes : accepted p = true := by
          rw [accepted, Option.isSome_iff_ne_none]
          intro hnone
          rw [applySetting_eq_none hnone] at ha
          exact absurd ha.symm (Option.some_ne_none m')
        rw [List.takeWhile_cons_of_pos hyes]
        refine (ih m').trans ?_
        rw [hset ha]
        by_cases hp : fold p.1 = key
        · rw [if_pos hp, List.filter_cons_of_pos (by simpa using hp), List.getLast?_cons]
          generalize (((lines.filterMap lineSetting).takeWhile accepted).filter fun p =>
            fold p.1 = key).getLast? = last
          cases last <;> rfl
        · rw [if_neg hp, List.filter_cons_of_neg (by simpa using hp)]

/-- **What a file leaves in the buffers**: what it gives each key last, before a setting that is
refused. -/
theorem stagedMetadata_fields (file : Bytes) (readError : Bool) :
    (stagedMetadata (some file) readError).2.name = lastGiven (str "name") (settingsRead file) ∧
      (stagedMetadata (some file) readError).2.version =
        lastGiven (str "version") (settingsRead file) ∧
      (stagedMetadata (some file) readError).2.arch = lastGiven (str "arch") (settingsRead file) := by
  exact ⟨bufferSettings_field (fun h => (applySetting_fields h).1) _ _,
    bufferSettings_field (fun h => (applySetting_fields h).2.1) _ _,
    bufferSettings_field (fun h => (applySetting_fields h).2.2) _ _⟩

lemma fits_stagedMetadata (file : Option Bytes) (readError : Bool) :
    (stagedMetadata file readError).2.Fits := by
  have hempty : PackageMetadata.Fits ⟨[], [], [], false⟩ := ⟨by simp, by simp, by simp⟩
  cases file with
  | none => exact hempty
  | some file => exact hempty.bufferSettings _

/-- The phases that an audit names. -/
def failurePhases : List Bytes :=
  [str "extraction", str "signature-validation", str "index-validation", str "metadata",
    str "architecture", str "install-script", str "archive-retention",
    str "self-upgrade-extraction", str "self-upgrade-validation", str "self-upgrade-metadata"]

/-- **What the audit of a failure holds**: the buffers at that step, and the arguments of the
upgrade. -/
structure UpgradeAudit.Of (a : UpgradeAudit) (u : Upgrade) (s : UpgradeSteps) : Prop where
  metadata : a.metadata = u.buffers s
  oldVersion : a.oldVersion = u.oldVersion
  archive : a.archive = u.archive
  failed : a.failed = true
  phase : a.phase ∈ failurePhases
  signingKey : a.signingKey = [] ∨ ∃ key : SigningKey, a.signingKey = key.text

lemma UpgradeAudit.Of.failure {m : PackageMetadata} {key phase : Bytes} {code : UInt32}
    (hm : m = u.buffers s) (hkey : key = [] ∨ ∃ k : SigningKey, key = k.text)
    (hphase : phase ∈ failurePhases) (h : u.failure m key phase code = some a) : a.Of u s := by
  rw [← Option.some.inj h]
  exact ⟨hm, rfl, rfl, rfl, hphase, hkey⟩

/-- Before the metadata is read, the buffers are as they were at the start. -/
lemma Upgrade.buffers_before (h : s.reads = false) : u.expected = u.buffers s := by
  rw [Upgrade.buffers, h]
  rfl

/-- From then on they are what the reading has left. -/
lemma Upgrade.buffers_after {key : SigningKey} (hextracts : ¬s.extracts = false)
    (hkey : s.signature = some key) (hindex : ¬s.index = false) :
    (stagedMetadata s.staged s.readError).2 = u.buffers s := by
  rw [Bool.not_eq_false] at hextracts hindex
  rw [Upgrade.buffers, UpgradeSteps.reads, hextracts, hkey, hindex]
  rfl

lemma selfUpgradeAudit_of (h : u.selfUpgradeAudit s = some a) : a.Of u s := by
  rw [Upgrade.selfUpgradeAudit, ite_eq_iff] at h
  obtain ⟨hextracts, h⟩ | ⟨hextracts, h⟩ := h
  · have hreads : s.reads = false := by rw [UpgradeSteps.reads, hextracts]; rfl
    exact .failure (Upgrade.buffers_before hreads) (Or.inl rfl) (by decide) h
  · cases hkey : s.signature with
    | none =>
      rw [hkey] at h
      have hreads : s.reads = false := by rw [UpgradeSteps.reads, hkey, Bool.and_assoc]; simp
      exact .failure (Upgrade.buffers_before hreads) (Or.inl rfl) (by decide) h
    | some key =>
      rw [hkey] at h
      dsimp only at h
      rw [ite_eq_iff] at h
      obtain ⟨hindex, h⟩ | ⟨hindex, h⟩ := h
      · have hreads : s.reads = false := by rw [UpgradeSteps.reads, hindex, Bool.and_false]
        exact .failure (Upgrade.buffers_before hreads) (Or.inr ⟨key, rfl⟩) (by decide) h
      · have hm := @Upgrade.buffers_after u s key hextracts hkey hindex
        rw [ite_eq_iff, ite_eq_iff] at h
        obtain ⟨-, h⟩ | ⟨-, ⟨-, h⟩ | ⟨-, h⟩⟩ := h
        · exact .failure hm (Or.inr ⟨key, rfl⟩) (by decide) h
        · exact .failure hm (Or.inr ⟨key, rfl⟩) (by decide) h
        · exact absurd h.symm (Option.some_ne_none _)

lemma installAudit_of {m : PackageMetadata} {key : Bytes} (hm : m = u.buffers s)
    (hkey : key = [] ∨ ∃ k : SigningKey, key = k.text) (h : u.installAudit s m key = some a) :
    a.Of u s := by
  rw [Upgrade.installAudit, ite_eq_iff, ite_eq_iff] at h
  obtain ⟨-, h⟩ | ⟨-, ⟨-, h⟩ | ⟨-, h⟩⟩ := h
  · exact .failure hm hkey (by decide) h
  · exact absurd h.symm (Option.some_ne_none _)
  · cases hscript : s.script with
    | some code =>
      rw [hscript] at h
      exact .failure hm hkey (by decide) h
    | none =>
      rw [hscript] at h
      dsimp only at h
      rw [ite_eq_iff, ite_eq_iff] at h
      obtain ⟨-, h⟩ | ⟨-, ⟨-, h⟩ | ⟨-, h⟩⟩ := h
      · exact absurd h.symm (Option.some_ne_none _)
      · exact .failure hm hkey (by decide) h
      · exact absurd h.symm (Option.some_ne_none _)

lemma upgradeAudit_of (h : u.upgradeAudit s = some a) : a.Of u s := by
  rw [Upgrade.upgradeAudit, ite_eq_iff, ite_eq_iff, ite_eq_iff] at h
  obtain ⟨-, h⟩ | ⟨-, ⟨hextracts, h⟩ | ⟨hextracts, ⟨-, h⟩ | ⟨-, h⟩⟩⟩ := h
  · exact absurd h.symm (Option.some_ne_none _)
  · have hreads : s.reads = false := by rw [UpgradeSteps.reads, hextracts]; rfl
    exact .failure (Upgrade.buffers_before hreads) (Or.inl rfl) (by decide) h
  · exact absurd h.symm (Option.some_ne_none _)
  · cases hkey : s.signature with
    | none =>
      rw [hkey] at h
      have hreads : s.reads = false := by rw [UpgradeSteps.reads, hkey, Bool.and_assoc]; simp
      exact .failure (Upgrade.buffers_before hreads) (Or.inl rfl) (by decide) h
    | some key =>
      rw [hkey] at h
      dsimp only at h
      rw [ite_eq_iff] at h
      obtain ⟨hindex, h⟩ | ⟨hindex, h⟩ := h
      · have hreads : s.reads = false := by rw [UpgradeSteps.reads, hindex, Bool.and_false]
        exact .failure (Upgrade.buffers_before hreads) (Or.inr ⟨key, rfl⟩) (by decide) h
      · have hm := @Upgrade.buffers_after u s key hextracts hkey hindex
        rw [ite_eq_iff, ite_eq_iff] at h
        obtain ⟨-, h⟩ | ⟨-, ⟨-, h⟩ | ⟨-, h⟩⟩ := h
        · exact .failure hm (Or.inr ⟨key, rfl⟩) (by decide) h
        · exact .failure hm (Or.inr ⟨key, rfl⟩) (by decide) h
        · exact installAudit_of hm (Or.inr ⟨key, rfl⟩) h

/-- **Every failure is audited with the buffers of its step.** -/
theorem failureAudit_of (h : u.failureAudit s = some a) : a.Of u s := by
  rw [Upgrade.failureAudit, ite_eq_iff] at h
  obtain ⟨-, h⟩ | ⟨-, h⟩ := h
  · exact selfUpgradeAudit_of h
  · exact upgradeAudit_of h

end Wpm.Archive
