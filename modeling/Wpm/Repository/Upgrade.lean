import Wpm.Lib.Command
import Wpm.Repository.Select

/-!
The upgrade of the installed packages from the catalogs.

What the loop attempts depends on the installed records, the catalog and the prerelease policy. How
an archive is then obtained and applied, and what the user answers, is left to any world `σ`, whose
part is a `Rest`; the attempts themselves are noted beside it.
-/

namespace Wpm.Repository

open Wpm.Lib.CString Wpm.Lib.SemVer Wpm.Lib.Command Wpm.Operation

/-- What the user selects: every package or the ones named, an architecture, a version. -/
structure Selectors where
  all : Bool
  names : List Bytes
  arch : Option Bytes
  version : Option Bytes

/-- What the call has loaded: the architecture of the program, the prerelease policy, the installed
records and the catalog. -/
structure Loaded where
  targetArch : Bytes
  policy : Option Bytes
  installed : List InstalledEntry
  entries : List PackageEntry

/-- The state of the call: the upgrades attempted so far, newest first, and the rest of the
world. -/
structure Session (σ : Type) where
  attempts : List (InstalledEntry × PackageEntry)
  world : σ

/-- What `wpm_repo_upgrade` leaves to the rest of the program. -/
structure Rest (σ : Type) where
  /-- `confirm_upgrade_plan`. -/
  confirm : Cmd σ Bool
  /-- `obtain`, `candidate_matches` and `package_source`. -/
  fetch : PackageEntry → Cmd σ Unit
  /-- `wpm_archive_upgrade`, or `wpm_archive_schedule_self_upgrade` for the program itself. -/
  apply : InstalledEntry → PackageEntry → Cmd σ Unit

/-- The counters of the loop. -/
structure Tally where
  processed : ℕ
  failures : ℕ

def Tally.process (t : Tally) : Tally := { t with processed := t.processed + 1 }

def Tally.fail (t : Tally) : Tally := { t with failures := t.failures + 1 }

/-- `requested`. -/
def requested (name : Bytes) (names : List Bytes) : Bool := names.any fun n => fold name = fold n

/-- The architecture is the selected one, if there is one. -/
def Selectors.picksArch (sel : Selectors) (item : InstalledEntry) : Bool :=
  sel.arch.all fun arch => fold arch = fold item.arch

/-- The record is selected. -/
def Selectors.picks (sel : Selectors) (item : InstalledEntry) : Bool :=
  (sel.all || requested item.name sel.names) && sel.picksArch item

/-- `select_candidate`, for an installed record. -/
def Loaded.candidate (l : Loaded) (item : InstalledEntry) (version : Option Bytes) :
    Option PackageEntry :=
  selectCandidate l.entries
    { targetArch := l.targetArch
      allowPre := prereleaseEffective l.policy item.name
      name := item.name
      arch := some item.arch
      exactVersion := version
      installMode := false }

/-- `newer_candidate`. -/
def Loaded.newerCandidate (l : Loaded) (item : InstalledEntry) (version : Option Bytes) :
    Option PackageEntry :=
  (l.candidate item version).filter fun e => semverCompare e.version item.version = some .gt

/-- What a line of the printed plan says. -/
structure PlanLine where
  name : Bytes
  arch : Bytes
  fromVersion : Bytes
  toVersion : Bytes
  deriving DecidableEq

/-- The line for the upgrade of a record to an entry. -/
def planLine (item : InstalledEntry) (e : PackageEntry) : PlanLine :=
  ⟨item.name, item.arch, item.version, e.version⟩

/-- The lines that `print_upgrade_plan` prints. -/
def printedPlan (l : Loaded) (sel : Selectors) : List PlanLine :=
  l.installed.zipIdx.filterMap fun p =>
    if sel.picksArch p.1 && installedIsLatest l.installed p.2 p.1 &&
      !conflictingAny l.installed p.2 p.1 then
      (l.newerCandidate p.1 none).map (planLine p.1)
    else none

/-- `print_upgrade_plan`, which returns how many upgrades it prints. -/
def printUpgradePlan (l : Loaded) (sel : Selectors) : ℕ := (printedPlan l sel).length

section

variable {σ : Type} (rest : Rest σ) (sel : Selectors) (l : Loaded)

/-- A command of the rest of the program. -/
def onWorld {α : Type} (c : Cmd σ α) : Cmd (Session σ) α := fun s =>
  ((c s.world).1, { s with world := (c s.world).2 })

/-- The attempt to upgrade a record to an entry. -/
def attemptUpgrade (item : InstalledEntry) (e : PackageEntry) : Cmd (Session σ) Bool := do
  Cmd.modify fun s => { s with attempts := (item, e) :: s.attempts }
  onWorld (do rest.fetch e; rest.apply item e : Cmd σ Unit).attempt

/-- The body of the loop of `wpm_repo_upgrade`. -/
def upgradeStep (t : Tally) (p : InstalledEntry × ℕ) : Cmd (Session σ) Tally :=
  if sel.picks p.1 = false then pure t
  else if installedIsLatest l.installed p.2 p.1 = false then pure t
  else if conflictingAny l.installed p.2 p.1 then
    pure (if sel.arch.any fun arch => fold arch = str "any" then t.fail else t)
  else match l.candidate p.1 sel.version with
    | none => pure t.process
    | some e =>
      if semverCompare e.version p.1.version ≠ some .gt then
        pure (if sel.version.isSome then t.process.fail else t.process)
      else do
        let ok ← attemptUpgrade rest p.1 e
        pure (if ok then t.process else t.process.fail)

/-- How many of the names are not installed. -/
def missingNames (sel : Selectors) (installed : List InstalledEntry) : ℕ :=
  sel.names.countP fun name =>
    !installed.any fun item => fold name = fold item.name && sel.picksArch item

/-- The question before an upgrade of everything; it is not asked while a plan is collected. -/
def askUpgrade (collecting : Bool) : Cmd (Session σ) Bool :=
  if sel.all ∧ collecting = false ∧ 0 < printUpgradePlan l sel then onWorld rest.confirm
  else pure true

/-- The rest of `wpm_repo_upgrade` once everything is loaded. -/
def upgradeLoaded (collecting : Bool) : Cmd (Session σ) Unit := do
  let proceed ← askUpgrade rest sel l collecting
  if proceed then
    let t ← l.installed.zipIdx.foldlM (upgradeStep rest sel l) ⟨0, 0⟩
    let failures := t.failures + missingNames sel l.installed
    Cmd.guard (failures = 0 ∧ t.processed ≠ 0)

/-- `wpm_repo_upgrade`. The archives that `load_installed` comes across and the catalog that
`load_entries` merges are none when these fail. -/
def repoUpgrade (collecting : Bool) (targetArch : Bytes) (policy : Option Bytes)
    (found : Option (List (Option PackageInfo))) (catalog : Option (List PackageEntry)) :
    Cmd (Session σ) Unit := do
  Cmd.guard (sel.version.all fun v => (semverParse v).isSome)
  let found ← Cmd.ofOption found
  let entries ← Cmd.ofOption catalog
  upgradeLoaded rest sel ⟨targetArch, policy, loadInstalled found, entries⟩ collecting

end

/-! ### What is attempted -/

/-- **A sound upgrade** of an installed record to an entry of the catalog. -/
structure SoundUpgrade (sel : Selectors) (l : Loaded) (item : InstalledEntry) (e : PackageEntry) :
    Prop where
  installed : item ∈ l.installed
  listed : e ∈ l.entries
  picked : sel.picks item = true
  name : fold e.name = fold item.name
  arch : fold e.arch = fold item.arch
  /-- The version comes after every installed one of the name and the architecture. -/
  newer : ∃ v, versionOf e.version = some v ∧ ∀ other ∈ l.installed, fold other.name = fold e.name →
    fold other.arch = fold e.arch → ∃ w, versionOf other.version = some w ∧ precedence w v = .lt
  prerelease : isPrerelease e.version = true → prereleaseEffective l.policy e.name = true
  version : ∀ v, sel.version = some v → e.version = v
  /-- A package for any architecture has no record for a specific one. -/
  any : fold e.arch = str "any" → ∀ other ∈ l.installed, fold other.name = fold e.name →
    fold other.arch = str "any"

/-- The policy does not distinguish the letter case of the name. -/
lemma prereleaseEffective_congr {name name' : Bytes} (file : Option Bytes)
    (h : fold name = fold name') : prereleaseEffective file name = prereleaseEffective file name' := by
  have hread : Policy.read name = Policy.read name' := by
    funext policy line
    unfold Policy.read
    rw [h]
  unfold prereleaseEffective
  rw [hread]

/-- The candidate is an entry of the name and the architecture that the policy and the selected
version admit. -/
lemma Loaded.candidate_spec {l : Loaded} {item : InstalledEntry} {version : Option Bytes}
    {e : PackageEntry} (h : l.candidate item version = some e) :
    e ∈ l.entries ∧ fold e.name = fold item.name ∧ fold e.arch = fold item.arch ∧
      (∀ v, version = some v → e.version = v) ∧
      (isPrerelease e.version = true → prereleaseEffective l.policy item.name = true) := by
  obtain ⟨hmem, ⟨hname, _, hversion, hpre⟩, harch⟩ := selectCandidate_spec h
  exact ⟨hmem, hname, harch (Option.some_ne_none _), hversion, hpre⟩

/-- **The filters of the loop** leave sound upgrades. -/
lemma soundUpgrade_of_filters {sel : Selectors} {l : Loaded} {i : ℕ} {item : InstalledEntry}
    {e : PackageEntry} (hl : ∀ item ∈ l.installed, ∃ v, versionOf item.version = some v)
    (hi : l.installed[i]? = some item) (hpick : sel.picks item = true)
    (hlatest : installedIsLatest l.installed i item = true)
    (hconflict : conflictingAny l.installed i item = false)
    (hselect : l.candidate item sel.version = some e)
    (hgt : semverCompare e.version item.version = some .gt) : SoundUpgrade sel l item e := by
  have hitem : item ∈ l.installed := List.mem_of_getElem? hi
  obtain ⟨hmem, hname, harch, hversion, hpre⟩ := Loaded.candidate_spec hselect
  obtain ⟨u, hu⟩ := hl item hitem
  rw [semverCompare_eq, hu] at hgt
  refine ⟨hitem, hmem, hpick, hname, harch, ?_, ?_, hversion, ?_⟩
  · cases hv : versionOf e.version with
    | none => rw [hv] at hgt; exact absurd hgt (by simp)
    | some v =>
      rw [hv] at hgt
      have hvu : precedence v u = .gt := by simpa using hgt
      refine ⟨v, rfl, fun other ho hn ha => ?_⟩
      obtain ⟨w, hw⟩ := hl other ho
      have hwu : (precedence w u).isLE := installedIsLatest_spec hlatest hi ho
        (hname.symm.trans hn.symm) (harch.symm.trans ha.symm) hu hw
      have huv : precedence u v = .lt := Std.OrientedCmp.gt_iff_lt.1 hvu
      exact ⟨w, hw, Std.TransCmp.lt_of_isLE_of_lt hwu huv⟩
  · intro h
    exact (prereleaseEffective_congr l.policy hname).trans (hpre h)
  · intro hany other ho hn
    exact conflictingAny_spec hconflict hi (harch.symm.trans hany) ho (hn.trans hname)

section

variable {σ : Type} {rest : Rest σ} {sel : Selectors} {l : Loaded}

/-- Every upgrade attempted so far was sound. -/
def AllSound (sel : Selectors) (l : Loaded) (s : Session σ) : Prop :=
  ∀ a ∈ s.attempts, SoundUpgrade sel l a.1 a.2

lemma onWorld_allSound {α : Type} (c : Cmd σ α) : Keeps (AllSound sel l) (onWorld c) := by
  intro s hs
  refine ⟨fun a s' h => ?_, fun s' h => ?_⟩
  · rw [← (Prod.mk.inj h).2]
    exact hs
  · rw [← (Prod.mk.inj h).2]
    exact hs

/-- **The step lemma**: what the body of the loop attempts is sound. -/
lemma upgradeStep_allSound (hl : ∀ item ∈ l.installed, ∃ v, versionOf item.version = some v)
    (t : Tally) {p : InstalledEntry × ℕ} (hp : p ∈ l.installed.zipIdx) :
    Keeps (AllSound sel l) (upgradeStep rest sel l t p) := by
  have hkeep : ∀ t : Tally, Keeps (AllSound sel l) (pure t : Cmd (Session σ) Tally) :=
    fun t => Triple.pure fun _ hs => hs
  unfold upgradeStep
  refine Triple.ite (fun _ => hkeep _) fun hpick => ?_
  refine Triple.ite (fun _ => hkeep _) fun hlatest => ?_
  refine Triple.ite (fun _ => hkeep _) fun hconflict => ?_
  cases hselect : l.candidate p.1 sel.version with
  | none => exact hkeep _
  | some e =>
    refine Triple.ite (fun _ => hkeep _) fun hgt => ?_
    have hsound : SoundUpgrade sel l p.1 e :=
      soundUpgrade_of_filters hl (List.mem_zipIdx_iff_getElem?.1 hp) (by simpa using hpick)
        (by simpa using hlatest) (by simpa using hconflict) hselect (not_not.1 hgt)
    refine Keeps.bind ?_ fun ok => hkeep _
    refine Triple.bind (Triple.modify fun s hs => ?_) fun _ => onWorld_allSound _
    intro a ha
    rcases List.mem_cons.1 ha with rfl | ha
    · exact hsound
    · exact hs a ha

/-- **The run lemma**: the loop, and what stands around it, attempt sound upgrades only. -/
lemma upgradeLoaded_allSound (hl : ∀ item ∈ l.installed, ∃ v, versionOf item.version = some v)
    (collecting : Bool) : Keeps (AllSound sel l) (upgradeLoaded rest sel l collecting) := by
  unfold upgradeLoaded
  refine Keeps.bind ?_ fun proceed => ?_
  · exact Triple.ite (fun _ => onWorld_allSound _) fun _ => Triple.pure fun _ hs => hs
  · refine Triple.ite (fun _ => ?_) fun _ => Triple.pure fun _ hs => hs
    refine Keeps.bind ?_ fun t => Keeps.guard
    exact Keeps.foldlM (fun t p hp => upgradeStep_allSound hl t hp) _

end

/-- **Upgrade is sound**: whatever is installed, listed, selected and allowed, and whatever the rest
of the program does, every upgrade that is attempted is a sound one. -/
theorem repoUpgrade_sound {σ : Type} (rest : Rest σ) (sel : Selectors) (collecting : Bool)
    (targetArch : Bytes) (policy : Option Bytes) (found : List (Option PackageInfo))
    (entries : List PackageEntry) (world : σ) :
    ∀ a ∈ (repoUpgrade rest sel collecting targetArch policy (some found) (some entries)
      ⟨[], world⟩).2.attempts,
      SoundUpgrade sel ⟨targetArch, policy, loadInstalled found, entries⟩ a.1 a.2 := by
  have hkeep : Keeps (AllSound sel ⟨targetArch, policy, loadInstalled found, entries⟩)
      (repoUpgrade rest sel collecting targetArch policy (some found) (some entries)) := by
    unfold repoUpgrade
    rw [Cmd.ofOption_some, Cmd.ofOption_some, Cmd.pure_bind, Cmd.pure_bind]
    refine Keeps.guard.bind fun _ => ?_
    exact upgradeLoaded_allSound (fun item h => versionOf_loadInstalled h) collecting
  exact Triple.left hkeep fun a ha => absurd ha List.not_mem_nil

/-- Two records and an entry that is newer than both. -/
def sampleFound : List (Option PackageInfo) :=
  [some ⟨str "tool", str "1.10.0", str "x64"⟩, none, some ⟨str "Tool", str "1.9.0", str "x64"⟩]

def sampleEntry : PackageEntry :=
  { name := str "tool", version := str "2.0.0", arch := str "X64", url := [], priority := 0,
    order := 0 }

def sampleRest : Rest Unit := ⟨pure true, fun _ => pure (), fun _ _ => pure ()⟩

def sampleSelectors : Selectors := ⟨true, [], none, none⟩

theorem repoUpgrade_sound_sample :
    SoundUpgrade sampleSelectors ⟨str "x64", none, loadInstalled sampleFound, [sampleEntry]⟩
      ⟨str "tool", str "1.10.0", str "x64"⟩ sampleEntry :=
  repoUpgrade_sound sampleRest sampleSelectors false (str "x64") none sampleFound [sampleEntry] ()
    (⟨str "tool", str "1.10.0", str "x64"⟩, sampleEntry) (by decide)

end Wpm.Repository
