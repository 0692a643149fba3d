import Wpm.Archive.Metadata
import Wpm.Operation.Identity

/-!
The file names under which archives are kept.

The package store and the cache of the repositories name an archive after its identity, the fields
separated by hyphens that a field may have in it as well. Which identities then share a file is
decided by the parts between the hyphens.
-/

namespace Wpm.Repository

open Wpm.Lib.CString Wpm.Lib.Command Wpm.Operation Wpm.Archive

/-- The same package as the program compares identities. -/
def SamePackage (p q : PackageInfo) : Prop :=
  fold p.name = fold q.name ∧ fold p.arch = fold q.arch ∧ p.version = q.version

instance (p q : PackageInfo) : Decidable (SamePackage p q) := inferInstanceAs (Decidable (_ ∧ _))

/-- The order of the fields: that of `wpm_operation_store_name` and of the cache, and the one that
the cache had before. -/
inductive Layout
  | current
  | legacy
  deriving DecidableEq

/-- The fields of a file name. -/
def Layout.fields (p : PackageInfo) : Layout → List Bytes
  | .current => [p.name, p.arch, p.version]
  | .legacy => [p.name, p.version, p.arch]

/-- The format `%s-%s-%s.zip`. -/
def Layout.fileName (p : PackageInfo) (o : Layout) : Bytes :=
  (str "-").intercalate (o.fields p) ++ str ".zip"

/-- The parts between the hyphens, up to letter case. -/
def Layout.parts (p : PackageInfo) (o : Layout) : List Bytes :=
  (o.fields p).flatMap fun field => (fold field).splitOn (ch '-')

/-- The name that `wpm_operation_store_name` makes for an item. -/
lemma fileName_of_storeName {item : PlanItem} {size : ℕ} {name : Bytes}
    (h : item.storeName size = some name) : name = Layout.current.fileName item.identity := by
  have hname : item.identity.name ++ str "-" ++ item.identity.arch ++ str "-" ++
      item.identity.version ++ str ".zip" = Layout.current.fileName item.identity := by
    simp [Layout.fileName, Layout.fields, List.intercalate, List.intersperse]
  unfold PlanItem.storeName at h
  rw [hname] at h
  exact (Option.some.inj (Option.ite_none_right_eq_some.1 h).2).symm

/-- A path in the cache, cut off by `snprintf` where the buffer ends. -/
def cacheFile (root : Bytes) (p : PackageInfo) (o : Layout) : Bytes :=
  (root ++ str "\\cache\\packages\\" ++ o.fileName p).take (pathSize - 1)

/-- The part of `obtain` that chooses the file in the cache, with the files that are present: an
archive of the earlier layout is used if there is none of the current one. -/
def cachePath (root : Bytes) (p : PackageInfo) (present : Bytes → Bool) : Option Bytes :=
  if [p.name, p.version, p.arch].any fun field =>
      field.any fun c => c = ch '\\' || c = ch '/' || c = ch ':' || c = ch '*' then none
  else if present (cacheFile root p .current) = false ∧ present (cacheFile root p .legacy) then
    some (cacheFile root p .legacy)
  else some (cacheFile root p .current)

/-- **The identities never share a retained file, nor a file of the cache**, unless they are the
same package. -/
structure DistinctFiles (root : Bytes) (p q : PackageInfo) : Prop where
  store : ∀ (item item' : PlanItem) (size size' : ℕ) n m, item.identity = p → item'.identity = q →
    item.storeName size = some n → item'.storeName size' = some m → fold n = fold m → SamePackage p q
  cache : ∀ present present' n m, cachePath root p present = some n →
    cachePath root q present' = some m → fold n = fold m → SamePackage p q

/-- **No regrouping of hyphens**: two packages that are not the same do not have the same parts, in
any order of their fields. -/
def Apart (p q : PackageInfo) : Prop := SamePackage p q ∨ ∀ o o' : Layout, o.parts p ≠ o'.parts q

/-- An identity that `read_archive_metadata` lets through, in the fields of a
`wpm_package_info`. -/
structure Accepted (p : PackageInfo) : Prop where
  name : isSafeMetadataValue p.name = true
  version : isSafeMetadataValue p.version = true
  arch : isSafeMetadataValue p.arch = true
  nameFits : p.name.length < 128
  versionFits : p.version.length < 64
  archFits : p.arch.length < 16

/-- The paths of the cache are not cut off. -/
def HasRoom (root : Bytes) : Prop := root.length + 228 < pathSize

/-! ### When two file names are the same -/

variable {p q : PackageInfo} {root : Bytes}

/-- Texts joined by a separator are the same when their parts are. -/
lemma intercalate_inj_iff {c : UInt8} {a b : List Bytes} (ha : a ≠ []) (hb : b ≠ []) :
    [c].intercalate a = [c].intercalate b ↔
      (a.flatMap fun field => field.splitOn c) = b.flatMap fun field => field.splitOn c := by
  have hsplit : ∀ {l : List Bytes}, l ≠ [] →
      ([c].intercalate l).splitOn c = l.flatMap fun field => field.splitOn c := by
    intro l hl
    induction l with
    | nil => exact absurd rfl hl
    | cons x l ih =>
      cases l with
      | nil => simp
      | cons y l =>
        rw [List.intercalate_cons_cons, List.append_assoc, List.singleton_append,
          List.splitOn_append_cons_self, ih (List.cons_ne_nil y l)]
        rfl
  constructor
  · intro h
    rw [← hsplit ha, ← hsplit hb, h]
  · intro h
    rw [← hsplit ha, ← hsplit hb] at h
    rw [← @List.intercalate_splitOn _ ([c].intercalate a) _ _ c, h, List.intercalate_splitOn]

lemma fold_intercalate (l : List Bytes) :
    fold ((str "-").intercalate l) = (str "-").intercalate (l.map fold) := by
  induction l with
  | nil => rfl
  | cons x l ih =>
    cases l with
    | nil => simp
    | cons y l =>
      have hhyphen : fold (str "-") = str "-" := by decide
      rw [List.intercalate_cons_cons, fold_append, fold_append, ih, hhyphen, List.map_cons,
        List.map_cons, List.map_cons, List.intercalate_cons_cons]

lemma fold_fileName_eq_iff {o o' : Layout} :
    fold (o.fileName p) = fold (o'.fileName q) ↔ o.parts p = o'.parts q := by
  have hne : ∀ (p : PackageInfo) (o : Layout), (o.fields p).map fold ≠ [] := by
    intro p o
    cases o <;> exact List.cons_ne_nil _ _
  have hparts : ∀ (p : PackageInfo) (o : Layout), o.parts p =
      ((o.fields p).map fold).flatMap fun field => field.splitOn (ch '-') :=
    fun p o => (List.flatMap_map ..).symm
  unfold Layout.fileName
  rw [fold_append, fold_append, List.append_left_inj, fold_intercalate, fold_intercalate, hparts,
    hparts]
  exact intercalate_inj_iff (hne p o) (hne q o')

lemma Accepted.length_fileName (h : Accepted p) (o : Layout) : (o.fileName p).length < 212 := by
  have h1 := h.nameFits
  have h2 := h.versionFits
  have h3 := h.archFits
  have hlen : (o.fileName p).length = p.name.length + p.version.length + p.arch.length + 6 := by
    have hhyphen : (str "-").length = 1 := by decide
    have hzip : (str ".zip").length = 4 := by decide
    cases o <;> simp [Layout.fileName, Layout.fields, List.intercalate, List.intersperse, hhyphen,
      hzip] <;> omega
  omega

lemma fold_cacheFile_eq_iff {o o' : Layout} (hroot : HasRoom root) (hp : Accepted p)
    (hq : Accepted q) :
    fold (cacheFile root p o) = fold (cacheFile root q o') ↔ o.parts p = o'.parts q := by
  have huncut : ∀ {p : PackageInfo} (o : Layout), Accepted p →
      cacheFile root p o = root ++ str "\\cache\\packages\\" ++ o.fileName p := by
    intro p o hp
    have hlen := hp.length_fileName o
    refine List.take_of_length_le ?_
    have hstart : (str "\\cache\\packages\\").length = 16 := rfl
    unfold HasRoom at hroot
    rw [List.length_append, List.length_append]
    omega
  rw [huncut o hp, huncut o' hq, fold_append, fold_append _ (o'.fileName q), List.append_right_inj]
  exact fold_fileName_eq_iff

/-! ### The files of the cache -/

/-- The characters of a safe value are none of those that `obtain` refuses. -/
lemma safe_any_eq_false {value : Bytes} (h : isSafeMetadataValue value = true) :
    (value.any fun c => c = ch '\\' || c = ch '/' || c = ch ':' || c = ch '*') = false := by
  have hchars : ∀ c : UInt8, (isAlnum c || c = ch '-' || c = ch '_' || c = ch '.' || c = ch '+') →
      (c = ch '\\' || c = ch '/' || c = ch ':' || c = ch '*') = false := by
    intro c hc
    by_contra hne
    simp only [Bool.or_eq_true, decide_eq_true_eq, Bool.not_eq_false] at hne
    rcases hne with ((rfl | rfl) | rfl) | rfl <;> exact absurd hc (by decide)
  unfold isSafeMetadataValue at h
  rw [Bool.and_eq_true] at h
  rw [List.any_eq_false]
  intro c hc
  exact Bool.not_eq_true _ ▸ hchars c (List.all_eq_true.1 h.2 c hc)

lemma Accepted.cachePath_eq (h : Accepted p) (present : Bytes → Bool) :
    cachePath root p present =
      if present (cacheFile root p .current) = false ∧ present (cacheFile root p .legacy) then
        some (cacheFile root p .legacy)
      else some (cacheFile root p .current) := by
  unfold cachePath
  rw [if_neg]
  simp [safe_any_eq_false h.name, safe_any_eq_false h.version, safe_any_eq_false h.arch]

/-- `obtain` comes to a file of either layout. -/
lemma Accepted.exists_cachePath (h : Accepted p) (o : Layout) :
    ∃ present, cachePath root p present = some (cacheFile root p o) := by
  cases o with
  | current =>
    refine ⟨fun _ => false, ?_⟩
    rw [h.cachePath_eq, if_neg (by simp)]
  | legacy =>
    refine ⟨fun path => path = cacheFile root p .legacy, ?_⟩
    rw [h.cachePath_eq]
    split_ifs with hc
    · rfl
    · simpa using hc

/-- `obtain` comes to a file of no other layout. -/
lemma Accepted.cachePath_layout (h : Accepted p) {present : Bytes → Bool} {path : Bytes}
    (hpath : cachePath root p present = some path) : ∃ o, path = cacheFile root p o := by
  rw [h.cachePath_eq] at hpath
  split_ifs at hpath
  · exact ⟨.legacy, (Option.some.inj hpath).symm⟩
  · exact ⟨.current, (Option.some.inj hpath).symm⟩

/-- **When two identities have files of their own.** -/
lemma distinctFiles_iff (hroot : HasRoom root) (hp : Accepted p) (hq : Accepted q) :
    DistinctFiles root p q ↔ Apart p q := by
  constructor
  · intro h
    by_cases hsame : SamePackage p q
    · exact .inl hsame
    · refine .inr fun o o' hparts => hsame ?_
      obtain ⟨present, hpath⟩ := @Accepted.exists_cachePath p root hp o
      obtain ⟨present', hpath'⟩ := @Accepted.exists_cachePath q root hq o'
      exact h.cache present present' _ _ hpath hpath'
        ((fold_cacheFile_eq_iff hroot hp hq).2 hparts)
  · rintro (hsame | hparts)
    · exact ⟨fun _ _ _ _ _ _ _ _ _ _ _ => hsame, fun _ _ _ _ _ _ _ => hsame⟩
    · refine ⟨?_, fun present present' n m hn hm hfold => ?_⟩
      · rintro item item' size size' n m rfl rfl hn hm hfold
        obtain rfl := fileName_of_storeName hn
        obtain rfl := fileName_of_storeName hm
        exact absurd (fold_fileName_eq_iff.1 hfold) (hparts _ _)
      · obtain ⟨o, rfl⟩ := hp.cachePath_layout hn
        obtain ⟨o', rfl⟩ := hq.cachePath_layout hm
        exact absurd ((fold_cacheFile_eq_iff hroot hp hq).1 hfold) (hparts o o')

/-! ### The archives that planned runs retain -/

/-- A planned run: what surrounds it, and its steps. -/
structure PlannedRun where
  env : Env
  disk : Disk
  yes : Bool
  steps : List Step

/-- The identities whose archives a trace stored, in their order. -/
def storedIdentities : List Event → List PackageInfo
  | [] => []
  | .stored i :: before =>
    storedIdentities before ++ ((collectedItems before)[i]?.map fun a => a.identity).toList
  | _ :: before => storedIdentities before

/-- The identities whose archives the runs stored. -/
def storedByRuns (runs : List PlannedRun) : List PackageInfo :=
  runs.flatMap fun r => storedIdentities (run r.env r.disk r.yes r.steps).trace

/-- The package store: the identity of the archive under a name in lower case. -/
def retain (kept : Bytes → Option PackageInfo) (p : PackageInfo) : Bytes → Option PackageInfo :=
  Function.update kept (fold (Layout.current.fileName p)) (some p)

/-- **No retained archive is overwritten** by one of another package, from an empty store on. -/
def NoOverwrite (stored : List PackageInfo) : Prop :=
  ∀ before q after, stored = before ++ q :: after → ∀ p,
    before.foldl retain (fun _ => none) (fold (Layout.current.fileName q)) = some p → SamePackage p q

/-- What is kept under a name was stored under it. -/
lemma mem_of_retain {stored : List PackageInfo} {name : Bytes} :
    stored.foldl retain (fun _ => none) name = some p →
      p ∈ stored ∧ fold (Layout.current.fileName p) = name := by
  induction stored using List.reverseRecOn with
  | nil => exact fun h => absurd h (by simp)
  | append_singleton stored r ih =>
    intro h
    rw [List.foldl_append, List.foldl_cons, List.foldl_nil, retain, Function.update_apply] at h
    split_ifs at h with hname
    · obtain rfl := Option.some.inj h
      exact ⟨List.mem_append_right _ List.mem_cons_self, hname.symm⟩
    · obtain ⟨hmem, hp⟩ := ih h
      exact ⟨List.mem_append_left _ hmem, hp⟩

lemma noOverwrite_of_pairwise {stored : List PackageInfo} (h : stored.Pairwise fun p q =>
    SamePackage p q ∨ Layout.current.parts p ≠ Layout.current.parts q) : NoOverwrite stored := by
  intro before q after hl p hp
  obtain ⟨hmem, hname⟩ := mem_of_retain hp
  rw [hl] at h
  have hpq := (List.pairwise_append.1 h).2.2 p hmem q List.mem_cons_self
  exact hpq.resolve_right (not_not.2 (fold_fileName_eq_iff.1 hname))

/-- **Which packages share files.** Two identities have files of their own if and only if they do
not regroup the same parts; and no run overwrites an archive of another package as long as the
identities stored so far do not. -/
theorem retainedFiles_distinct (hroot : HasRoom root) :
    (∀ p q, Accepted p → Accepted q → (DistinctFiles root p q ↔ Apart p q)) ∧
    ∀ runs : List PlannedRun, ((storedByRuns runs).Pairwise fun p q =>
      SamePackage p q ∨ Layout.current.parts p ≠ Layout.current.parts q) →
      NoOverwrite (storedByRuns runs) :=
  ⟨fun _ _ hp hq => distinctFiles_iff hroot hp hq, fun _ h => noOverwrite_of_pairwise h⟩

/-- A plan of two archives, with the identities of each of them. -/
def pairRun (one two : PackageInfo) : PlannedRun where
  env := { quietEnv with inspect := fun view => if view 0 = str "one" then some one else some two }
  disk :=
    { names := fun path => if path = str "c:\\one.zip" then some (sampleFile 200)
        else if path = str "c:\\two.zip" then some (sampleFile 201) else none
      contents := fun f => if f = sampleFile 200 then str "one" else str "two" }
  yes := true
  steps := [.install (str "one.zip") none true, .install (str "two.zip") none true, .confirm,
    .install (str "one.zip") none true, .install (str "two.zip") none true]

/-- Two versions of a tool, of which one has a hyphen in it. -/
def versionsRun : PlannedRun :=
  pairRun ⟨str "tool", str "1.0.0", str "x64"⟩ ⟨str "tool", str "1.0.0-rc.1", str "x64"⟩

lemma storedByRuns_versions : storedByRuns [versionsRun] =
    [⟨str "tool", str "1.0.0", str "x64"⟩, ⟨str "tool", str "1.0.0-rc.1", str "x64"⟩] := by
  decide +kernel

theorem retainedFiles_distinct_sample : HasRoom (str "C:\\WPM") ∧
    (DistinctFiles (str "C:\\WPM") ⟨str "tool", str "1.0.0", str "x64"⟩
      ⟨str "tool", str "1.0.0-rc.1", str "x64"⟩ ↔
    Apart ⟨str "tool", str "1.0.0", str "x64"⟩ ⟨str "tool", str "1.0.0-rc.1", str "x64"⟩) ∧
    NoOverwrite (storedByRuns [versionsRun]) := by
  have hroot : HasRoom (str "C:\\WPM") := by unfold HasRoom; decide
  refine ⟨hroot, (retainedFiles_distinct hroot).1 _ _ ?_ ?_,
    (retainedFiles_distinct hroot).2 [versionsRun] ?_⟩
  · constructor <;> decide
  · constructor <;> decide
  · rw [storedByRuns_versions, List.pairwise_pair]
    exact .inr (by decide)

/-! ### Two packages that share a file -/

/-- Two archives, of a tool and of a tool whose name has the other's fields in it. -/
def sharingRun : PlannedRun :=
  pairRun ⟨str "a", str "1.0.0-x64-2.0.0", str "x64"⟩ ⟨str "a-x64-1.0.0", str "2.0.0", str "x64"⟩

lemma storedByRuns_sharing : storedByRuns [sharingRun] =
    [⟨str "a", str "1.0.0-x64-2.0.0", str "x64"⟩, ⟨str "a-x64-1.0.0", str "2.0.0", str "x64"⟩] := by
  decide +kernel

/-- **An archive is overwritten**: both packages are installed, and the store has one of them. -/
theorem sharingRun_overwrites :
    (∀ p ∈ storedByRuns [sharingRun], Accepted p) ∧ ¬NoOverwrite (storedByRuns [sharingRun]) := by
  rw [storedByRuns_sharing]
  refine ⟨fun p hp => ?_, fun h => ?_⟩
  · rcases List.mem_cons.1 hp with rfl | hp
    · constructor <;> decide
    · obtain rfl := List.mem_singleton.1 hp
      constructor <;> decide
  · have hkept := h [⟨str "a", str "1.0.0-x64-2.0.0", str "x64"⟩]
      ⟨str "a-x64-1.0.0", str "2.0.0", str "x64"⟩ [] rfl
      ⟨str "a", str "1.0.0-x64-2.0.0", str "x64"⟩ (by decide +kernel)
    exact absurd hkept (by decide)

end Wpm.Repository
