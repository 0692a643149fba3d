import Mathlib.Data.List.Nodup
import Wpm.Repository.Locator
import Wpm.Repository.Select

/-!
The loading of what is installed.

`load_installed` enumerates the archives of the packages directory into a table of `MAX_INSTALLED`
records and warns of those it cannot use. The loop ends at the first `FindNextFileA` that fails, and
passes over what it has no room for; `loadInstalled_complete_iff` says when nothing is left out.
-/

namespace Wpm.Repository

open Wpm.Lib.CString Wpm.Lib.SemVer Wpm.Operation
open Wpm.Archive (pathSize)

/-- The packages directory, as `load_installed` comes across it. -/
structure Store where
  /-- What `wpm_get_data_root` finds. -/
  dataRoot : Option Bytes
  /-- The names `*.zip` in the directory, in the order of the enumeration. -/
  archives : List Bytes
  nodup : archives.Nodup
  /-- The number of names that the enumeration gives before it fails, if it does. -/
  failsAfter : Option ℕ
  /-- `wpm_archive_inspect`. -/
  inspect : Bytes → Option PackageInfo

/-- A warning of `load_installed`. -/
inductive Warning
  | unreadable (archive path : Bytes)
  | nonSemVer (version archive path : Bytes)

/-- The archive that a warning is about. -/
def Warning.archive : Warning → Bytes
  | unreadable archive _ => archive
  | nonSemVer _ archive _ => archive

/-- The text of a warning. -/
def Warning.text : Warning → Bytes
  | unreadable archive path =>
    str "Warning: unreadable installed package record: " ++ archive ++ str "\n  Path: " ++ path ++
      str "\n"
  | nonSemVer version archive path =>
    str "Warning: installed package record has non-SemVer version '" ++ version ++ str "': " ++
      archive ++ str "\n  Path: " ++ path ++ str "\n  This legacy record is ignored for " ++
      str "update selection; review the archive before deciding whether it is obsolete.\n"

/-- The records that are loaded and the warnings that are printed. -/
structure LoadedRecords where
  records : List InstalledEntry
  warnings : List Warning

variable {d : Store} {store : Bytes} {loaded : LoadedRecords}

/-- The path `store`, if it has room for the pattern of the search behind it. -/
def Store.path (d : Store) : Option Bytes :=
  (d.dataRoot.bind fun root => joinPath root (str "packages")).filter fun store =>
    (joinPath store (str "*.zip")).isSome

/-- The names that `FindFirstFileA` and `FindNextFileA` give, up to the call that fails. -/
def Store.found (d : Store) : List Bytes := d.archives.take (d.failsAfter.getD d.archives.length)

/-- The names that the enumeration does not come to. -/
def Store.behind (d : Store) : List Bytes := d.archives.drop (d.failsAfter.getD d.archives.length)

/-- What the loop of `load_installed` does with an archive. -/
def Store.step (d : Store) (store : Bytes) (s : LoadedRecords) (archive : Bytes) : LoadedRecords :=
  if maxInstalled ≤ s.records.length then s
  else match joinPath store archive with
    | none => s
    | some path => match d.inspect path with
      | none => { s with warnings := s.warnings ++ [.unreadable archive path] }
      | some info =>
        if (semverParse info.version).isSome then
          { s with records := s.records ++ [⟨info.name, info.version, info.arch⟩] }
        else { s with warnings := s.warnings ++ [.nonSemVer info.version archive path] }

/-- `load_installed`, none when it returns 0: the search is refused at once, with another error than
that there is no such file. -/
def Store.loadInstalled (d : Store) : Option LoadedRecords :=
  match d.path with
  | none => none
  | some store =>
    if d.failsAfter = some 0 then none else some (d.found.foldl (d.step store) ⟨[], []⟩)

/-- The records are those of `loadInstalled`, of what the archives say that the search comes
across. -/
lemma records_loadInstalled (hstore : d.path = some store) (h : d.loadInstalled = some loaded) :
    loaded.records =
      loadInstalled (d.found.map fun archive => (joinPath store archive).bind d.inspect) := by
  unfold Store.loadInstalled at h
  rw [hstore] at h
  obtain ⟨-, h⟩ := Option.ite_none_left_eq_some.1 h
  rw [← Option.some.inj h, loadInstalled, List.foldl_map]
  generalize d.found = archives
  refine (List.foldl_hom LoadedRecords.records fun s archive => ?_).symm
  unfold Store.step loadInstalledStep
  split_ifs with hroom
  · rfl
  · cases joinPath store archive with
    | none => rfl
    | some path =>
      rw [Option.bind_some]
      cases hinspect : d.inspect path with
      | none => simp only [hinspect]
      | some info =>
        simp only [hinspect]
        split_ifs <;> rfl

/-! ### What there is to load -/

/-- The path of an archive of the store, however long. -/
def archivePath (store archive : Bytes) : Bytes := store ++ ch '\\' :: archive

/-- The record of an archive that can be read and has a semantic version. -/
def Store.record (d : Store) (store archive : Bytes) : Option InstalledEntry :=
  match d.inspect (archivePath store archive) with
  | none => none
  | some info =>
    if (semverParse info.version).isSome then some ⟨info.name, info.version, info.arch⟩ else none

/-- **Nothing is silently left out.** -/
structure Store.Complete (d : Store) (store : Bytes) (loaded : LoadedRecords) : Prop where
  /-- One record for every archive of the directory that can be read and has a semantic version. -/
  records : loaded.records.Perm (d.archives.filterMap (d.record store))
  /-- Every other archive that the search came across has a warning. -/
  warned : ∀ archive ∈ d.found, d.record store archive = none →
    ∃ w ∈ loaded.warnings, w.archive = archive

/-- **Everything is within the reach** of the search, of the path buffer and of the table. -/
structure Store.WithinReach (d : Store) (store : Bytes) : Prop where
  behind : ∀ archive ∈ d.behind, d.record store archive = none
  fits : ∀ archive ∈ d.found, (archivePath store archive).length < pathSize
  room : ∀ before archive after, d.found = before ++ archive :: after →
    (before.filterMap (d.record store)).length < maxInstalled

/-- The store's path ends with the name `packages`, so a separator comes behind it. -/
lemma Store.joinPath_path (hstore : d.path = some store) (archive : Bytes) :
    joinPath store archive = if (archivePath store archive).length < pathSize then
      some (archivePath store archive) else none := by
  obtain ⟨hbind, -⟩ := Option.filter_eq_some_iff.1 hstore
  obtain ⟨root, -, hjoin⟩ := Option.bind_eq_some_iff.1 hbind
  obtain ⟨-, hpath⟩ := Option.ite_none_right_eq_some.1 hjoin
  have hlast : store.getLastD 0 ≠ ch '\\' := by
    rw [← Option.some.inj hpath, List.getLastD_eq_getLast?,
      List.getLast?_append_of_ne_nil _ (by decide)]
    decide
  simp only [joinPath, archivePath, if_neg hlast, List.append_assoc, List.singleton_append]
  rfl

/-! ### One archive -/

/-- An archive behind a full table, or whose path is too long, is passed over. -/
lemma Store.step_passed (hstore : d.path = some store) {s : LoadedRecords} {archive : Bytes}
    (h : maxInstalled ≤ s.records.length ∨ ¬(archivePath store archive).length < pathSize) :
    d.step store s archive = s := by
  unfold Store.step
  rcases h with h | h
  · exact if_pos h
  · split_ifs with hroom
    · rfl
    · rw [joinPath_path hstore, if_neg h]

/-- A record is loaded. -/
lemma Store.step_record (hstore : d.path = some store) {s : LoadedRecords} {archive : Bytes}
    {e : InstalledEntry} (hroom : s.records.length < maxInstalled)
    (hfits : (archivePath store archive).length < pathSize) (he : d.record store archive = some e) :
    d.step store s archive = ⟨s.records ++ [e], s.warnings⟩ := by
  unfold Store.step
  rw [if_neg (Nat.not_le.2 hroom), joinPath_path hstore, if_pos hfits]
  unfold Store.record at he
  cases hinspect : d.inspect (archivePath store archive) with
  | none =>
    rw [hinspect] at he
    cases he
  | some info =>
    rw [hinspect] at he
    obtain ⟨hversion, hrecord⟩ := Option.ite_none_right_eq_some.1 he
    simp only [hinspect, if_pos hversion, Option.some.inj hrecord]

/-- What has no record has a warning. -/
lemma Store.step_warned (hstore : d.path = some store) {s : LoadedRecords} {archive : Bytes}
    (hroom : s.records.length < maxInstalled)
    (hfits : (archivePath store archive).length < pathSize) (he : d.record store archive = none) :
    ∃ w : Warning, w.archive = archive ∧
      d.step store s archive = ⟨s.records, s.warnings ++ [w]⟩ := by
  unfold Store.step
  rw [if_neg (Nat.not_le.2 hroom), joinPath_path hstore, if_pos hfits]
  unfold Store.record at he
  cases hinspect : d.inspect (archivePath store archive) with
  | none => exact ⟨.unreadable archive (archivePath store archive), rfl, by simp only [hinspect]⟩
  | some info =>
    rw [hinspect] at he
    have hversion : ¬(semverParse info.version).isSome = true := fun h =>
      absurd ((if_pos h).symm.trans he) (Option.some_ne_none _)
    exact ⟨.nonSemVer info.version archive (archivePath store archive), rfl, by
      simp only [hinspect, if_neg hversion]⟩

/-- A step warns of its own archive only. -/
lemma Store.archive_of_mem_step {s : LoadedRecords} {archive : Bytes} {w : Warning}
    (hw : w ∈ (d.step store s archive).warnings) : w ∈ s.warnings ∨ w.archive = archive := by
  unfold Store.step at hw
  split_ifs at hw
  · exact .inl hw
  · split at hw
    · exact .inl hw
    · split at hw
      · exact (List.mem_append.1 hw).imp_right fun h =>
          congrArg Warning.archive (List.mem_singleton.1 h)
      · split_ifs at hw
        · exact .inl hw
        · exact (List.mem_append.1 hw).imp_right fun h =>
            congrArg Warning.archive (List.mem_singleton.1 h)

/-! ### The loop -/

lemma Store.archive_of_mem_foldl {archives : List Bytes} {s : LoadedRecords} {w : Warning}
    (hw : w ∈ (archives.foldl (d.step store) s).warnings) :
    w ∈ s.warnings ∨ w.archive ∈ archives := by
  induction archives generalizing s with
  | nil => exact .inl hw
  | cons archive archives ih =>
    rcases ih hw with hw | hw
    · refine (archive_of_mem_step hw).imp_right fun hname => ?_
      rw [hname]
      exact List.mem_cons_self
    · exact .inr (List.mem_cons_of_mem _ hw)

/-- The loop while everything is within reach: each archive gives its record or its warning. -/
lemma Store.foldl_step (hstore : d.path = some store) {archives : List Bytes} {s : LoadedRecords}
    (hfits : ∀ archive ∈ archives, (archivePath store archive).length < pathSize)
    (hroom : ∀ before archive after, archives = before ++ archive :: after →
      s.records.length + (before.filterMap (d.record store)).length < maxInstalled) :
    (archives.foldl (d.step store) s).records = s.records ++ archives.filterMap (d.record store) ∧
      s.warnings <+: (archives.foldl (d.step store) s).warnings ∧
      ∀ archive ∈ archives, d.record store archive = none →
        ∃ w ∈ (archives.foldl (d.step store) s).warnings, w.archive = archive := by
  induction archives generalizing s with
  | nil => exact ⟨(List.append_nil _).symm, List.prefix_refl _, fun _ h => absurd h List.not_mem_nil⟩
  | cons archive archives ih =>
    have hroom₀ : s.records.length < maxInstalled := hroom [] archive archives rfl
    have hfits₀ := hfits archive List.mem_cons_self
    have hfits' := fun a ha => hfits a (List.mem_cons_of_mem archive ha)
    rw [List.foldl_cons]
    cases he : d.record store archive with
    | some e =>
      rw [step_record hstore hroom₀ hfits₀ he]
      obtain ⟨hrecords, hkept, hwarned⟩ := @ih ⟨s.records ++ [e], s.warnings⟩ hfits' (by
        rintro before a after rfl
        have h := hroom (archive :: before) a after rfl
        rw [List.filterMap_cons_some he, List.length_cons] at h
        rw [List.length_append, List.length_singleton]
        omega)
      refine ⟨?_, hkept, fun a ha hnone => ?_⟩
      · rw [hrecords, List.filterMap_cons_some he, List.append_assoc, List.singleton_append]
      · rcases List.mem_cons.1 ha with rfl | ha
        · rw [he] at hnone
          cases hnone
        · exact hwarned a ha hnone
    | none =>
      obtain ⟨w, hw, hstep⟩ := step_warned hstore hroom₀ hfits₀ he
      rw [hstep]
      obtain ⟨hrecords, hkept, hwarned⟩ := @ih ⟨s.records, s.warnings ++ [w]⟩ hfits' (by
        rintro before a after rfl
        have h := hroom (archive :: before) a after rfl
        rwa [List.filterMap_cons_none he] at h)
      refine ⟨?_, (List.prefix_append _ _).trans hkept, fun a ha hnone => ?_⟩
      · rw [hrecords, List.filterMap_cons_none he]
      · rcases List.mem_cons.1 ha with rfl | ha
        · exact ⟨w, hkept.subset (List.mem_append_right _ List.mem_cons_self), hw⟩
        · exact hwarned a ha hnone

lemma Store.length_foldl_le (hstore : d.path = some store) {archives : List Bytes} {s : LoadedRecords} :
    (archives.foldl (d.step store) s).records.length ≤
      s.records.length + (archives.filterMap (d.record store)).length := by
  induction archives generalizing s with
  | nil => exact le_rfl
  | cons archive archives ih =>
    rw [List.foldl_cons]
    refine ih.trans ?_
    by_cases hpassed : maxInstalled ≤ s.records.length ∨
        ¬(archivePath store archive).length < pathSize
    · rw [step_passed hstore hpassed]
      have h := ((List.sublist_cons_self archive archives).filterMap (d.record store)).length_le
      omega
    · rw [not_or, Nat.not_le, not_not] at hpassed
      cases he : d.record store archive with
      | some e =>
        rw [step_record hstore hpassed.1 hpassed.2 he, List.filterMap_cons_some he,
          List.length_append, List.length_singleton, List.length_cons]
        omega
      | none =>
        obtain ⟨w, -, hstep⟩ := step_warned hstore hpassed.1 hpassed.2 he
        rw [hstep, List.filterMap_cons_none he]

/-- Conversely, where no record and no warning is missing, everything was within reach: an archive
that is passed over leaves the table one record short, or no warning has its name. -/
lemma Store.reach_of_foldl (hstore : d.path = some store) {archives : List Bytes} {s : LoadedRecords}
    (hnodup : archives.Nodup) (hfresh : ∀ w ∈ s.warnings, w.archive ∉ archives)
    (hlength : s.records.length + (archives.filterMap (d.record store)).length ≤
      (archives.foldl (d.step store) s).records.length)
    (hwarned : ∀ archive ∈ archives, d.record store archive = none →
      ∃ w ∈ (archives.foldl (d.step store) s).warnings, w.archive = archive) :
    (∀ archive ∈ archives, (archivePath store archive).length < pathSize) ∧
      ∀ before archive after, archives = before ++ archive :: after →
        s.records.length + (before.filterMap (d.record store)).length < maxInstalled := by
  induction archives generalizing s with
  | nil =>
    exact ⟨fun _ h => absurd h List.not_mem_nil, fun before _ _ h => by simp at h⟩
  | cons archive archives ih =>
    obtain ⟨hnew, hnodup⟩ := List.nodup_cons.1 hnodup
    rw [List.foldl_cons] at hlength hwarned
    have htaken : s.records.length < maxInstalled ∧
        (archivePath store archive).length < pathSize := by
      by_contra hpassed
      rw [not_and_or, Nat.not_lt] at hpassed
      rw [step_passed hstore hpassed] at hlength hwarned
      cases he : d.record store archive with
      | some e =>
        have h := @length_foldl_le _ _ hstore archives s
        rw [List.filterMap_cons_some he, List.length_cons] at hlength
        omega
      | none =>
        obtain ⟨w, hw, hname⟩ := hwarned archive List.mem_cons_self he
        rcases archive_of_mem_foldl hw with hw | hw
        · exact hfresh w hw (hname ▸ List.mem_cons_self)
        · exact hnew (hname ▸ hw)
    have hfresh' : ∀ w ∈ (d.step store s archive).warnings, w.archive ∉ archives := by
      intro w hw hmem
      rcases archive_of_mem_step hw with hw | hname
      · exact hfresh w hw (List.mem_cons_of_mem _ hmem)
      · exact hnew (hname ▸ hmem)
    have hlength' : (d.step store s archive).records.length =
        s.records.length + ([archive].filterMap (d.record store)).length := by
      cases he : d.record store archive with
      | some e =>
        rw [step_record hstore htaken.1 htaken.2 he, List.filterMap_cons_some he,
          List.length_append]
        rfl
      | none =>
        obtain ⟨w, -, hstep⟩ := step_warned hstore htaken.1 htaken.2 he
        rw [hstep, List.filterMap_cons_none he]
        rfl
    have hcount : ∀ l : List Bytes, ((archive :: l).filterMap (d.record store)).length =
        ([archive].filterMap (d.record store)).length +
          (l.filterMap (d.record store)).length := by
      intro l
      rw [← List.singleton_append, List.filterMap_append, List.length_append]
    rw [hcount] at hlength
    obtain ⟨hfits, hroom⟩ := ih hnodup hfresh' (by omega)
      (fun a ha => hwarned a (List.mem_cons_of_mem _ ha))
    refine ⟨fun a ha => ?_, fun before a after hsplit => ?_⟩
    · rcases List.mem_cons.1 ha with rfl | ha
      · exact htaken.2
      · exact hfits a ha
    · cases before with
      | nil => exact htaken.1
      | cons first before =>
        obtain ⟨rfl, hrest⟩ := List.cons.inj hsplit
        have h := hroom before a after hrest
        rw [hcount]
        omega

/-- **What is installed is loaded completely** exactly when everything is within reach. -/
theorem loadInstalled_complete_iff (hstore : d.path = some store)
    (h : d.loadInstalled = some loaded) : d.Complete store loaded ↔ d.WithinReach store := by
  have hloaded : loaded = d.found.foldl (d.step store) ⟨[], []⟩ := by
    unfold Store.loadInstalled at h
    rw [hstore] at h
    obtain ⟨-, h⟩ := Option.ite_none_left_eq_some.1 h
    exact (Option.some.inj h).symm
  have hcut : d.archives = d.found ++ d.behind := (List.take_append_drop _ _).symm
  have hrecords : d.archives.filterMap (d.record store) =
      d.found.filterMap (d.record store) ++ d.behind.filterMap (d.record store) := by
    rw [← List.filterMap_append, ← hcut]
  constructor
  · intro hcomplete
    have hlength := hcomplete.records.length_eq
    rw [hrecords, List.length_append] at hlength
    have hle := @Store.length_foldl_le _ _ hstore d.found ⟨[], []⟩
    rw [← hloaded, List.length_nil] at hle
    obtain ⟨hfits, hroom⟩ := @Store.reach_of_foldl _ _ hstore d.found ⟨[], []⟩
      (d.nodup.sublist (List.take_sublist _ _)) (fun _ h => absurd h List.not_mem_nil)
      (by rw [← hloaded, List.length_nil]; omega) (hloaded ▸ hcomplete.warned)
    refine ⟨fun archive harchive => ?_, hfits, fun before archive after hsplit => ?_⟩
    · have hnil : d.behind.filterMap (d.record store) = [] := List.eq_nil_of_length_eq_zero (by omega)
      exact List.filterMap_eq_nil_iff.1 hnil archive harchive
    · have h := hroom before archive after hsplit
      rwa [List.length_nil, Nat.zero_add] at h
  · intro hreach
    obtain ⟨hfound, -, hwarned⟩ := @Store.foldl_step _ _ hstore d.found ⟨[], []⟩ hreach.fits
      (fun before archive after hsplit => by
        rw [List.length_nil, Nat.zero_add]
        exact hreach.room before archive after hsplit)
    have hnil : d.behind.filterMap (d.record store) = [] :=
      List.filterMap_eq_nil_iff.2 hreach.behind
    rw [← hloaded] at hfound hwarned
    refine ⟨?_, hwarned⟩
    rw [hfound, hrecords, hnil, List.append_nil, List.nil_append]

/-- Two archives of one package, the newer one behind the older one. -/
def sampleStore (failsAfter : Option ℕ) : Store where
  dataRoot := some (str "D:\\wpm")
  archives := [str "tool-1.zip", str "tool-2.zip"]
  nodup := by decide
  failsAfter := failsAfter
  inspect path := some ⟨str "tool", if path = str "D:\\wpm\\packages\\tool-2.zip" then
    str "2.0.0" else str "1.0.0", str "x64"⟩

theorem loadInstalled_complete_sample :
    (sampleStore none).Complete (str "D:\\wpm\\packages") ⟨[⟨str "tool", str "1.0.0", str "x64"⟩,
      ⟨str "tool", str "2.0.0", str "x64"⟩], []⟩ := by
  refine (@loadInstalled_complete_iff (sampleStore none) _ _ (by decide)
    (by rfl)).2 ⟨fun _ h => absurd h List.not_mem_nil, by decide, ?_⟩
  intro before archive after hsplit
  have hlength : before.length ≤ 2 := by
    have h := congrArg List.length hsplit
    rw [List.length_append] at h
    exact (Nat.le_add_right _ _).trans h.ge
  refine ((List.length_filterMap_le _ _).trans hlength).trans_lt ?_
  decide

/-- Where the enumeration fails behind the older archive, the older version is all there is. -/
theorem loadInstalled_incomplete : ∃ (d : Store) (store : Bytes) (loaded : LoadedRecords),
    d.path = some store ∧ d.loadInstalled = some loaded ∧ ¬d.Complete store loaded := by
  refine ⟨sampleStore (some 1), str "D:\\wpm\\packages",
    ⟨[⟨str "tool", str "1.0.0", str "x64"⟩], []⟩, by decide, by rfl, fun h => ?_⟩
  have hlength := h.records.length_eq
  revert hlength
  decide

end Wpm.Repository
