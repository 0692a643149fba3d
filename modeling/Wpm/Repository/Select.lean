import Wpm.Lib.Text
import Wpm.Operation.Record
import Wpm.Repository.Semver

/-!
The choice of a package among the entries of the catalogs, and the list of what is installed.
-/

namespace Wpm.Repository

open Wpm.Lib.CString Wpm.Lib.Text Wpm.Lib.SemVer Wpm.Operation

/-- A `package_entry`. -/
structure PackageEntry where
  name : Bytes
  version : Bytes
  arch : Bytes
  url : Bytes
  priority : ℤ
  order : ℕ
  deriving DecidableEq

/-- An `installed_entry`. -/
structure InstalledEntry where
  name : Bytes
  version : Bytes
  arch : Bytes
  deriving DecidableEq

/-! ### The prerelease policy -/

/-- The variables of the loop in `prerelease_effective`, with `value` when `found` is set. -/
structure Policy where
  globalValue : Bool
  value : Option Bool

/-- What `prerelease_effective` does with a line. -/
def Policy.read (package : Bytes) (policy : Policy) (line : Bytes) : Policy :=
  let line := spanNot [13, 10] line
  if fold (line.take 7) = str "global=" then
    { policy with globalValue := fold (line.drop 7) = str "true" }
  else match cutAt 9 line with
    | some (key, value) =>
      if fold key = fold package then { policy with value := some (fold value = str "true") }
      else policy
    | none => policy

/-- `prerelease_effective`, of the policy file if it can be opened. -/
def prereleaseEffective (file : Option Bytes) (package : Bytes) : Bool :=
  match file with
  | none => false
  | some text =>
    let policy := ((fgetsAll 512 (textMode text)).map cstr).foldl (Policy.read package)
      ⟨false, none⟩
    policy.value.getD policy.globalValue

/-! ### The selection -/

/-- `better_candidate`. -/
def betterCandidate (candidate : PackageEntry) (selected : Option PackageEntry) : Bool :=
  match selected with
  | none => true
  | some selected =>
    match semverCompare candidate.version selected.version with
    | none => false
    | some c => c = .gt || (c = .eq && (selected.priority < candidate.priority ||
        (candidate.priority = selected.priority && candidate.order < selected.order)))

/-- What `select_candidate` is asked for: the target architecture is that of the program, and
`arch` is none when an installation does not name one. -/
structure Wanted where
  targetArch : Bytes
  allowPre : Bool
  name : Bytes
  arch : Option Bytes
  exactVersion : Option Bytes
  installMode : Bool

/-- The tests of `select_candidate` before the architecture. -/
def Wanted.Admits (w : Wanted) (e : PackageEntry) : Prop :=
  fold e.name = fold w.name ∧ (semverParse e.version).isSome ∧
    (∀ v, w.exactVersion = some v → e.version = v) ∧ (isPrerelease e.version → w.allowPre)

instance (w : Wanted) (e : PackageEntry) : Decidable (w.Admits e) :=
  decidable_of_iff (fold e.name = fold w.name ∧ (semverParse e.version).isSome ∧
    (w.exactVersion.all fun v => e.version = v) = true ∧
    (isPrerelease e.version = true → w.allowPre = true)) <| by
    unfold Wanted.Admits
    cases w.exactVersion <;> simp

/-- What `select_candidate` does with an entry. -/
def selectStep (w : Wanted) (selected : Option PackageEntry) (e : PackageEntry) :
    Option PackageEntry :=
  if ¬w.Admits e then selected
  else if w.installMode ∧ w.arch = none then
    if fold e.arch ≠ fold w.targetArch ∧ fold e.arch ≠ str "any" then selected
    else if (selected.any fun s => fold s.arch = fold w.targetArch) ∧ fold e.arch = str "any" then
      selected
    else if (selected.any fun s => fold s.arch = str "any") ∧ fold e.arch = fold w.targetArch then
      some e
    else if betterCandidate e selected then some e else selected
  else if fold e.arch ≠ fold (w.arch.getD []) then selected
  else if betterCandidate e selected then some e else selected

/-- `select_candidate`. -/
def selectCandidate (entries : List PackageEntry) (w : Wanted) : Option PackageEntry :=
  entries.foldl (selectStep w) none

/-- The step chooses the entry or keeps the selection. -/
lemma selectStep_spec {w : Wanted} {selected : Option PackageEntry} {e s : PackageEntry}
    (h : selectStep w selected e = some s) : selected = some s ∨
      s = e ∧ w.Admits e ∧ (w.arch ≠ none → fold e.arch = fold (w.arch.getD [])) := by
  unfold selectStep at h
  by_cases ha : w.Admits e
  · rw [if_neg (not_not.2 ha)] at h
    split_ifs at h with hmode
    all_goals first
      | exact .inl h
      | exact .inr ⟨(Option.some.inj h).symm, ha, fun harch => absurd hmode.2 harch⟩
      | exact .inr ⟨(Option.some.inj h).symm, ha, fun _ => not_not.1 ‹_›⟩
  · rw [if_pos ha] at h
    exact .inl h

/-- **What is selected** is an entry that is admitted, of the architecture that is named. -/
lemma selectCandidate_spec {entries : List PackageEntry} {w : Wanted} {s : PackageEntry}
    (h : selectCandidate entries w = some s) :
    s ∈ entries ∧ w.Admits s ∧ (w.arch ≠ none → fold s.arch = fold (w.arch.getD [])) := by
  have hrun : ∀ (entries : List PackageEntry) (selected : Option PackageEntry),
      entries.foldl (selectStep w) selected = some s → selected = some s ∨ s ∈ entries ∧
        w.Admits s ∧ (w.arch ≠ none → fold s.arch = fold (w.arch.getD [])) := by
    intro entries
    induction entries with
    | nil => exact fun _ h => .inl h
    | cons e entries ih =>
      intro selected h
      rcases ih _ h with h | ⟨hs, hw⟩
      · rcases selectStep_spec h with h | ⟨rfl, hw⟩
        · exact .inl h
        · exact .inr ⟨List.mem_cons_self, hw⟩
      · exact .inr ⟨List.mem_cons_of_mem e hs, hw⟩
  exact (hrun entries none h).resolve_left (Option.some_ne_none s).symm

/-! ### The installed packages -/

/-- `MAX_INSTALLED`. -/
def maxInstalled : ℕ := 256

/-- What `load_installed` does with an archive of the store: one that cannot be inspected is left
out, and so is one whose version is not a semantic version. -/
def loadInstalledStep (loaded : List InstalledEntry) (found : Option PackageInfo) :
    List InstalledEntry :=
  if maxInstalled ≤ loaded.length then loaded
  else match found with
    | none => loaded
    | some info =>
      if (semverParse info.version).isSome then loaded ++ [⟨info.name, info.version, info.arch⟩]
      else loaded

/-- The loop of `load_installed`, of what the archives say that the search comes across. -/
def loadInstalled (found : List (Option PackageInfo)) : List InstalledEntry :=
  found.foldl loadInstalledStep []

/-- `installed_is_latest`. -/
def installedIsLatest (installed : List InstalledEntry) (i : ℕ) (item : InstalledEntry) : Bool :=
  installed.zipIdx.all fun p => !(p.2 ≠ i && fold item.name = fold p.1.name &&
    fold item.arch = fold p.1.arch && semverCompare p.1.version item.version = some .gt)

/-- `conflicting_any`. -/
def conflictingAny (installed : List InstalledEntry) (i : ℕ) (item : InstalledEntry) : Bool :=
  fold item.arch = str "any" && installed.zipIdx.any fun p => p.2 ≠ i &&
    fold item.name = fold p.1.name && fold p.1.arch ≠ str "any"

/-- Everything that is loaded has a semantic version. -/
lemma versionOf_loadInstalled {found : List (Option PackageInfo)} {item : InstalledEntry}
    (h : item ∈ loadInstalled found) : ∃ v, versionOf item.version = some v := by
  have hrun : ∀ (found : List (Option PackageInfo)) (loaded : List InstalledEntry),
      (∀ item ∈ loaded, (semverParse item.version).isSome) →
      ∀ item ∈ found.foldl loadInstalledStep loaded, (semverParse item.version).isSome := by
    intro found
    induction found with
    | nil => exact fun _ h => h
    | cons f found ih =>
      intro loaded hl
      refine ih _ ?_
      unfold loadInstalledStep
      split
      · exact hl
      · split
        · exact hl
        · split_ifs with hv
          · intro item hitem
            rcases List.mem_append.1 hitem with hitem | hitem
            · exact hl item hitem
            · obtain rfl := List.mem_singleton.1 hitem
              exact hv
          · exact hl
  obtain ⟨v, hv⟩ := Option.isSome_iff_exists.1
    (hrun found [] (fun _ h => absurd h List.not_mem_nil) item h)
  exact ⟨v.version, congrArg (Option.map Semver.version) hv⟩

/-- **A record that is the latest** precedes none of the others of its name and architecture. -/
lemma installedIsLatest_spec {installed : List InstalledEntry} {i : ℕ} {item other : InstalledEntry}
    {v w : Version} (h : installedIsLatest installed i item = true) (hi : installed[i]? = some item)
    (ho : other ∈ installed) (hname : fold item.name = fold other.name)
    (harch : fold item.arch = fold other.arch) (hv : versionOf item.version = some v)
    (hw : versionOf other.version = some w) : (precedence w v).isLE := by
  obtain ⟨j, hj⟩ := List.mem_iff_getElem?.1 ho
  by_cases hji : j = i
  · subst hji
    rw [hi] at hj
    obtain rfl := Option.some.inj hj
    rw [hv] at hw
    obtain rfl := Option.some.inj hw
    rw [(Std.ReflCmp.compare_self : precedence v v = .eq)]
    rfl
  · have hall := List.all_eq_true.1 h (other, j) (List.mem_zipIdx_iff_getElem?.2 hj)
    rw [semverCompare_eq, hv, hw] at hall
    simp only [ne_eq, hji, not_false_eq_true, hname, harch, decide_true, Bool.and_self,
      Bool.true_and, Option.bind_some, Option.map_some, Option.some.injEq, Bool.not_eq_true',
      decide_eq_false_iff_not] at hall
    cases hp : precedence w v
    · rfl
    · rfl
    · exact absurd hp hall

/-- A record for any architecture, without a conflict, is alone with its name. -/
lemma conflictingAny_spec {installed : List InstalledEntry} {i : ℕ} {item other : InstalledEntry}
    (h : conflictingAny installed i item = false) (hi : installed[i]? = some item)
    (hany : fold item.arch = str "any") (ho : other ∈ installed)
    (hname : fold other.name = fold item.name) : fold other.arch = str "any" := by
  by_contra hne
  obtain ⟨j, hj⟩ := List.mem_iff_getElem?.1 ho
  have hji : j ≠ i := by
    rintro rfl
    rw [hi] at hj
    obtain rfl := Option.some.inj hj
    exact hne hany
  have hnone := (Bool.and_eq_false_iff.1 h).resolve_left (by simp [hany])
  exact List.any_eq_false.1 hnone (other, j) (List.mem_zipIdx_iff_getElem?.2 hj)
    (by simp [hji, hname, hne])

end Wpm.Repository
