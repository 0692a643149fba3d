import Mathlib.Data.List.Perm.Subperm
import Wpm.Lib.Bindings
import Wpm.Repository.Configuration

/-!
The configuration over any number of commands.

`repositories.txt` stands for a map from locators to priorities and opt-ins. `wpm_repo_add` and
`wpm_repo_remove` change one key of it, and `load_repositories` reads all of it, as long as the lines
that are written come back as they are and there is room for the repositories.
-/

namespace Wpm.Repository

open Wpm.Lib Wpm.Lib.CString Wpm.Lib.Text Wpm.Lib.FilePath

/-- A command that changes the configuration. A priority is an `int`. -/
inductive RepoCommand
  | add (url : Bytes) (priority : Int32) (allowInsecureHttp : Bool)
  | remove (url : Bytes)
  deriving DecidableEq

/-- The priority and the opt-in that a change leaves, if it leaves the root. -/
def Change.newValue (change : Change) : Option (ℤ × Bool) :=
  if change.remove then none else some (change.priority, change.allowHttp)

variable (fullPath : Bytes → Option Bytes)

/-- What a command asks `rewrite` for. -/
def RepoCommand.change : RepoCommand → Option Change
  | .add url priority allowInsecureHttp => repoAdd fullPath url priority.toInt allowInsecureHttp
  | .remove url => repoRemove fullPath url

/-! ### The map -/

/-- The priority and the opt-in of the last addition of a root, if it has not been removed since.
The letter case of roots makes no difference. -/
def lastAdded (commands : List RepoCommand) (root : Bytes) : Option (ℤ × Bool) :=
  commands.foldl (fun value command =>
    match command.change fullPath with
    | some change => if fold change.wanted = root then change.newValue else value
    | none => value) none

/-- The roots that are added and not removed since, each with its priority and opt-in. -/
def configuredRoots (commands : List RepoCommand) : List (Bytes × ℤ × Bool) :=
  commands.foldl (fun roots command =>
    match command.change fullPath with
    | some change => Bindings.rebind (fold change.wanted) change.newValue roots
    | none => roots) []

/-- What is to be loaded for a root: what was added last, or the built-in default. -/
def expectedRoot (commands : List RepoCommand) (root : Bytes) : Option (ℤ × Bool) :=
  (lastAdded fullPath commands root).or
    (if root = fold defaultRepository then some (0, false) else none)

/-- **The configuration round-trips**: for each root there is one repository with what is expected of
it, or none if nothing is. -/
def RoundTrip (commands : List RepoCommand) (file : Option Bytes) : Prop :=
  ∀ root, ((loadRepositories fullPath file).filter fun r => fold r.url = root).map
    (fun r => (r.priority, r.allowInsecureHttp)) = (expectedRoot fullPath commands root).toList

/-- There is room for the roots and for the built-in default, if it is none of them. -/
def RoomForRoots (commands : List RepoCommand) : Prop :=
  (configuredRoots fullPath commands).length < maxRepositories ∨
    (configuredRoots fullPath commands).length = maxRepositories ∧
      lastAdded fullPath commands (fold defaultRepository) ≠ none

/-- A root that is added comes back as it is: it holds no null character, as no string does, its line
without the line feed fits the buffer, and a path is normalized to itself. -/
def Change.Keeps (change : Change) : Prop :=
  change.remove = false → (0 : UInt8) ∉ change.wanted ∧
    change.entry.length ≤ configLineSize ∧
    (isWebRepository change.wanted = false →
      ∃ again, repositoryNormalize fullPath change.wanted = some again ∧
        fold again = fold change.wanted)

/-- A sequence of commands that succeed, from an absent file on, and the file that they leave. No
call to the file system fails that the program does not look at. -/
inductive RepoRun : List RepoCommand → Option Bytes → Prop
  | start : RepoRun [] none
  | step {commands : List RepoCommand} {file file' : Option Bytes} {change : Change} (h : Outcome)
      (command : RepoCommand) (hrun : RepoRun commands file)
      (hchange : command.change fullPath = some change)
      (hsound : h.Sound file (change.apply (configLines file)))
      (hsuccess : rewrite h change file = (true, file')) :
      RepoRun (commands ++ [command]) file'

/-! ### Lines -/

/-- What a line binds. -/
def entrySetting (line : Bytes) : Option (Bytes × ℤ × Bool) :=
  (parseEntry line).map fun p => (fold p.2.1, p.1, p.2.2)

/-- A line that comes back as it is, and whose root the loader takes. -/
structure KeptLine (line : Bytes) : Prop where
  piece : IsPiece configLineSize line
  closed : IsClosed configLineSize line
  plain : (0 : UInt8) ∉ line
  again : ∀ priority url allow, parseEntry line = some (priority, url, allow) →
    ∃ normalized, repositoryNormalize fullPath url = some normalized ∧ fold normalized = fold url

/-! ### Normalizing twice -/

section Twice

variable {fullPath} {url normalized : Bytes}

/-- A web address has a slash, which no path keeps. -/
lemma isWebRepository_of_normalize (h : repositoryNormalize fullPath url = some normalized)
    (hweb : isWebRepository normalized = true) : isWebRepository url = true := by
  by_contra hnot
  obtain ⟨path, -, htrim⟩ := exists_trimmed (by simpa using hnot) h
  have hsub : normalized ⊆ unify path := by
    cases htrim with
    | share _ heq => exact heq ▸ trimTrailing_subset _ _ _
    | drive _ _ _ _ heq => exact heq ▸ trimTrailing_subset _ _ _
  obtain ⟨https, start, authority, rest, hparts, rfl⟩ := exists_webParts hweb
  have hslash : ch '/' ∈ fold start := by
    rw [hparts.start_eq]
    cases https <;> decide
  obtain ⟨c, hc, hlower⟩ := List.mem_map.1 hslash
  obtain rfl : c = ch '/' := eq_of_lower_eq (by decide) (hlower.trans (by decide))
  refine slash_notMem_unify path (hsub ?_)
  exact List.mem_append_left _ (List.mem_append_left _ hc)

end Twice

section Lines

variable {fullPath} {change : Change} {lines : List Bytes}

/-- **The lines that are written are read again.** -/
lemma configLines_of_kept (h : ∀ line ∈ lines, KeptLine fullPath line) :
    configLines (some (textModeOut lines.flatten)) = lines :=
  configLines_textModeOut_iff.2
    ⟨⟨fun line hline => (h line hline).piece,
      fun line hline => (h line (List.dropLast_subset _ hline)).closed⟩,
      fun line hline => (h line hline).plain⟩

/-- A line is concerned if it binds the root. -/
lemma concerns_iff_binds {line : Bytes} : change.concerns line = true ↔
    ∃ v, entrySetting line = some (fold change.wanted, v) := by
  unfold Change.concerns entrySetting
  cases parseEntry line with
  | none => simp
  | some p => simp

/-- What a locator must be to be normalized. -/
lemma ne_nil_of_normalize {url normalized : Bytes}
    (h : repositoryNormalize fullPath url = some normalized) :
    url ≠ [] ∧ ∀ c ∈ url, c ∉ ([9, 10, 13] : Bytes) := by
  rw [repositoryNormalize] at h
  by_cases hbad : url = [] ∨ url.any (· ∈ ([9, 13, 10] : Bytes))
  · rw [if_pos hbad] at h
    exact absurd h (by simp)
  · rw [not_or] at hbad
    exact ⟨hbad.1, fun c hc hmem => hbad.2 (any_of_mem hc hmem)⟩

/-- An addition whose root is kept. -/
structure Change.Addition (fullPath : Bytes → Option Bytes) (change : Change) : Prop where
  low : -longMax - 1 ≤ change.priority
  high : change.priority ≤ longMax
  allow : isHttpRepository change.wanted = false ∨ change.allowHttp = true
  plain : (0 : UInt8) ∉ change.wanted
  size : change.entry.length ≤ configLineSize
  again : ∃ again, repositoryNormalize fullPath change.wanted = some again ∧
    fold again = fold change.wanted

/-- **What the line of a root is read as**: pieces that bind the root to its priority and opt-in, and
nothing else. -/
lemma Change.Addition.exists_entry (h : change.Addition fullPath) : ∃ entry : List Bytes,
    entry.flatten = change.entry ∧ (∀ line ∈ entry, KeptLine fullPath line) ∧
      entry.filterMap entrySetting = [(fold change.wanted, change.priority, change.allowHttp)] := by
  obtain ⟨again, hagain, hfold⟩ := h.again
  obtain ⟨hne, hroot⟩ := ne_nil_of_normalize hagain
  -- the line without its line feed
  obtain ⟨body, hbody⟩ : ∃ body, body = Decimal.printInt change.priority ++ 9 :: change.wanted ++
      (if change.allowHttp then str "\tallow-insecure-http=true" else []) := ⟨_, rfl⟩
  have hentry : change.entry = body ++ [10] := by rw [hbody]; rfl
  have hparse : ∀ tail, tail = [] ∨ tail = [10] →
      parseEntry (body ++ tail) = some (change.priority, change.wanted, change.allowHttp) := by
    intro tail htail
    rw [hbody, parseEntry_line hroot htail, Decimal.strtol_printInt h.low h.high]
    exact (if_neg (not_not.2 rfl)).trans (if_pos ⟨hne, h.allow⟩)
  have hsetting : ∀ tail, tail = [] ∨ tail = [10] → entrySetting (body ++ tail) =
      some (fold change.wanted, change.priority, change.allowHttp) := by
    intro tail htail
    rw [entrySetting, hparse tail htail]
    rfl
  have hchars : ∀ c ∈ body, c ≠ 0 ∧ c ≠ 10 := by
    intro c hc
    have hdigits : ∀ c, c = ch '-' ∨ isDigit c = true → c ≠ 0 ∧ c ≠ 10 := by
      rintro c (rfl | hdigit)
      · decide
      · constructor <;> (rintro rfl; exact absurd hdigit (by decide))
    have hoption : ∀ c ∈ (if change.allowHttp then str "\tallow-insecure-http=true" else []),
        c ≠ 0 ∧ c ≠ 10 := by
      cases change.allowHttp with
      | false => exact fun c hc => absurd hc List.not_mem_nil
      | true => exact forall_mem_of_all (by decide)
    rw [hbody, List.append_assoc] at hc
    rcases List.mem_append.1 hc with hc | hc
    · exact hdigits c (Decimal.mem_printInt hc)
    rcases List.mem_append.1 hc with hc | hc
    · rcases List.mem_cons.1 hc with rfl | hc
      · decide
      · constructor
        · rintro rfl
          exact h.plain hc
        · rintro rfl
          exact hroot 10 hc (by decide)
    · exact hoption c hc
  have hlf : (10 : UInt8) ∉ body := fun hmem => (hchars 10 hmem).2 rfl
  have hkept : ∀ tail, tail = [] ∨ tail = [10] → IsPiece configLineSize (body ++ tail) →
      IsClosed configLineSize (body ++ tail) → KeptLine fullPath (body ++ tail) := by
    intro tail htail hpiece hclosed
    refine ⟨hpiece, hclosed, ?_, ?_⟩
    · rw [List.mem_append, not_or]
      refine ⟨fun hc => (hchars 0 hc).1 rfl, ?_⟩
      rcases htail with rfl | rfl <;> decide
    · intro priority url allow hline
      rw [hparse tail htail] at hline
      obtain ⟨-, rfl, -⟩ : _ ∧ change.wanted = url ∧ _ := by simpa using hline
      exact ⟨again, hagain, hfold⟩
  have hlength : body.length + 1 = change.entry.length := by rw [hentry, List.length_append]; rfl
  have hsize := h.size
  have hnonempty : body ≠ [] := by
    rw [hbody]
    simp
  by_cases hfits : change.entry.length < configLineSize
  · refine ⟨[body ++ [10]], by rw [hentry, List.flatten_singleton], ?_, ?_⟩
    · intro line hline
      rw [List.mem_singleton.1 hline]
      refine hkept [10] (.inr rfl) ⟨by simp, by rw [← hentry]; exact hfits, ?_⟩
        (.inl List.getLast?_concat)
      rw [List.dropLast_concat]
      exact hlf
    · rw [List.filterMap_cons, hsetting [10] (.inr rfl)]
      rfl
  · -- the line fills the buffer, and its line feed is read as a line of its own
    have hsetting0 := hsetting [] (.inl rfl)
    have hkept0 := hkept [] (.inl rfl)
    rw [List.append_nil] at hsetting0 hkept0
    have hnone : parseEntry [10] = none := by decide
    refine ⟨[body, [10]], by rw [hentry, List.flatten_cons, List.flatten_singleton], ?_, ?_⟩
    · intro line hline
      rcases List.mem_cons.1 hline with rfl | hline
      · exact hkept0 ⟨hnonempty, by omega, fun hmem => hlf (List.mem_of_mem_dropLast hmem)⟩
          (.inr (by omega))
      · rw [List.mem_singleton.1 hline]
        refine ⟨⟨by decide, by decide, by decide⟩, .inl rfl, by decide, ?_⟩
        intro priority url allow hline
        rw [hnone] at hline
        exact absurd hline (by simp)
    · rw [List.filterMap_cons, hsetting0, List.filterMap_cons, entrySetting, hnone]
      rfl

end Lines

/-! ### Commands -/

section Commands

variable {fullPath} {change : Change} {file file' : Option Bytes} {commands : List RepoCommand}
  {command : RepoCommand}

/-- **What a command adds is kept**, if it meets the condition. -/
lemma addition_of_change (hchange : command.change fullPath = some change)
    (hkeeps : change.Keeps fullPath) (hremove : change.remove = false) :
    change.Addition fullPath := by
  obtain ⟨hplain, hsize, hagain⟩ := hkeeps hremove
  cases command with
  | remove url =>
    rw [RepoCommand.change, repoRemove] at hchange
    split at hchange
    · obtain rfl := Option.some.inj hchange
      exact absurd hremove Bool.false_ne_true.symm
    · split_ifs at hchange
      obtain rfl := Option.some.inj hchange
      exact absurd hremove Bool.false_ne_true.symm
  | add url priority allow =>
    rw [RepoCommand.change, repoAdd] at hchange
    split at hchange
    · exact absurd hchange (by simp)
    next normalized hnormalized =>
      split_ifs at hchange with hhttp hother
      obtain rfl := Option.some.inj hchange
      refine ⟨priority.le_toInt, Int.le_sub_one_of_lt priority.toInt_lt, ?_, hplain, hsize, ?_⟩
      · cases hallow : allow with
        | true => exact .inr rfl
        | false => exact .inl (by simpa [hallow] using hhttp)
      · by_cases hweb : isWebRepository normalized = true
        · exact ⟨normalized, repositoryNormalize_twice
            (isWebRepository_of_normalize hnormalized hweb) hnormalized, rfl⟩
        · exact hagain (by simpa using hweb)

lemma rewrite_kept {h : Outcome} (hsound : h.Sound file (change.apply (configLines file)))
    (hsuccess : rewrite h change file = (true, file'))
    (hkept : ∀ line ∈ configLines file, KeptLine fullPath line)
    (hadd : change.remove = false → change.Addition fullPath) :
    (∀ line ∈ configLines file', KeptLine fullPath line) ∧
      (configLines file').filterMap entrySetting = Bindings.rebind (fold change.wanted)
        change.newValue ((configLines file).filterMap entrySetting) := by
  have hcommits : h.commits = true := by
    by_contra hnot
    rw [rewrite_of_not_commits (by simpa using hnot)] at hsuccess
    exact absurd (congrArg Prod.fst hsuccess) Bool.false_ne_true
  rw [rewrite_of_commits hcommits, hsound.readLines, hsound.written] at hsuccess
  have hfile : some (textModeOut (change.apply (configLines file)).flatten) = file' :=
    congrArg Prod.snd hsuccess
  obtain ⟨entry, hflatten, hlines, hsetting⟩ : ∃ entry : List Bytes,
      [change.entry].flatten = entry.flatten ∧
      (change.remove = false → ∀ line ∈ entry, KeptLine fullPath line) ∧
      (change.remove = false → entry.filterMap entrySetting =
        [(fold change.wanted, change.priority, change.allowHttp)]) := by
    cases hremove : change.remove with
    | true => exact ⟨[change.entry], rfl, by simp, by simp⟩
    | false =>
      obtain ⟨entry, hflatten, hlines, hsetting⟩ := (hadd hremove).exists_entry
      exact ⟨entry, by rw [hflatten, List.flatten_singleton], fun _ => hlines, fun _ => hsetting⟩
  have happly : (change.apply (configLines file)).flatten =
      (Bindings.replaceAll change.concerns change.remove entry (configLines file)).flatten :=
    Bindings.flatten_replaceAll hflatten
  have hnew : ∀ line ∈ Bindings.replaceAll change.concerns change.remove entry (configLines file),
      KeptLine fullPath line := by
    intro line hline
    rcases Bindings.mem_replaceAll hline with hline | ⟨hline, hremove⟩
    · exact hkept line hline
    · exact hlines hremove line hline
  rw [← hfile, happly, configLines_of_kept hnew]
  exact ⟨hnew, Bindings.filterMap_replaceAll (fun line _ => concerns_iff_binds) hsetting⟩

/-- What a command does to the map. -/
lemma lastAdded_append (hchange : command.change fullPath = some change) (root : Bytes) :
    lastAdded fullPath (commands ++ [command]) root =
      if fold change.wanted = root then change.newValue
      else lastAdded fullPath commands root := by
  rw [lastAdded, List.foldl_append, List.foldl_cons, List.foldl_nil, hchange]
  rfl

lemma configuredRoots_append (hchange : command.change fullPath = some change) :
    configuredRoots fullPath (commands ++ [command]) =
      Bindings.rebind (fold change.wanted) change.newValue (configuredRoots fullPath commands) := by
  rw [configuredRoots, List.foldl_append, List.foldl_cons, List.foldl_nil, hchange]
  rfl

/-- **After a run the lines bind the roots that are configured**, each once, to what was added last. -/
lemma RepoRun.kept (hrun : RepoRun fullPath commands file)
    (hkeeps : ∀ command ∈ commands, ∀ change, command.change fullPath = some change →
      change.Keeps fullPath) :
    (∀ line ∈ configLines file, KeptLine fullPath line) ∧
      (configLines file).filterMap entrySetting = configuredRoots fullPath commands ∧
      Bindings.Once (configuredRoots fullPath commands) ∧
      ∀ root, Bindings.last root (configuredRoots fullPath commands) =
        lastAdded fullPath commands root := by
  induction hrun with
  | start => exact ⟨fun line hline => absurd hline List.not_mem_nil, rfl, List.nodup_nil, fun _ => rfl⟩
  | step h command hrun hchange hsound hsuccess ih =>
    obtain ⟨hkept, hbindings, honce, hlast⟩ :=
      ih fun command' h' => hkeeps command' (List.mem_append_left _ h')
    have hadd := addition_of_change hchange
      (hkeeps command (List.mem_append_right _ (List.mem_singleton_self _)) _ hchange)
    obtain ⟨hkept', hbindings'⟩ := rewrite_kept hsound hsuccess hkept hadd
    rw [configuredRoots_append hchange]
    refine ⟨hkept', by rw [hbindings', hbindings], honce.rebind _ _, fun root => ?_⟩
    rw [lastAdded_append hchange]
    split_ifs with hroot
    · rw [← hroot, Bindings.last_rebind_self]
    · rw [Bindings.last_rebind_of_ne (Ne.symm hroot), hlast]

end Commands

/-! ### Loading -/

section Loading

variable {fullPath} {commands : List RepoCommand} {file : Option Bytes} {lines : List Bytes}

/-- What counts of a repository. -/
def RepositoryEntry.setting (r : RepositoryEntry) : Bytes × ℤ × Bool :=
  (fold r.url, r.priority, r.allowInsecureHttp)

/-- Of the lines as many are taken as there is room for. -/
lemma foldl_loadLine (hkept : ∀ line ∈ lines, KeptLine fullPath line) {result : List RepositoryEntry}
    (hresult : result.length ≤ maxRepositories) :
    (lines.foldl (loadLine fullPath) result).map RepositoryEntry.setting =
      (result.map RepositoryEntry.setting ++ lines.filterMap entrySetting).take maxRepositories := by
  induction lines generalizing result with
  | nil =>
    rw [List.filterMap_nil, List.append_nil, List.take_of_length_le (by simpa using hresult)]
    rfl
  | cons line lines ih =>
    obtain ⟨hline, hlines⟩ := List.forall_mem_cons.1 hkept
    rw [List.foldl_cons]
    cases hparse : parseEntry line with
    | none =>
      have hload : loadLine fullPath result line = result := by rw [loadLine, hparse]
      have hsetting : entrySetting line = none := by rw [entrySetting, hparse]; rfl
      rw [hload, List.filterMap_cons, hsetting]
      exact ih hlines hresult
    | some p =>
      obtain ⟨priority, url, allow⟩ := p
      obtain ⟨normalized, hnormalized, hfold⟩ := hline.again priority url allow hparse
      have hload : loadLine fullPath result line = if maxRepositories ≤ result.length then result
          else result ++ [⟨normalized, priority, result.length, allow⟩] := by
        rw [loadLine, hparse]
        dsimp only
        rw [hnormalized]
        exact if_neg fun h => h.2 hfold.symm
      have hsetting : entrySetting line = some (fold url, priority, allow) := by
        rw [entrySetting, hparse]
        rfl
      rw [hload, List.filterMap_cons, hsetting]
      by_cases hfull : maxRepositories ≤ result.length
      · -- nothing more is taken
        have hlength : (result.map RepositoryEntry.setting).length = maxRepositories := by
          rw [List.length_map]
          omega
        rw [if_pos hfull, ih hlines hresult, ← hlength, List.take_left, List.take_left]
      · rw [if_neg hfull, ih hlines (by rw [List.length_append, List.length_singleton]; omega),
          List.map_append, List.append_assoc, ← hfold]
        rfl

/-- What is loaded of the roots. -/
def loadedSettings (roots : List (Bytes × ℤ × Bool)) : List (Bytes × ℤ × Bool) :=
  if (roots.any fun r => r.1 = fold defaultRepository) ∨ maxRepositories ≤ roots.length then roots
  else roots ++ [(fold defaultRepository, 0, false)]

/-- **What is loaded** after a run. -/
lemma loadRepositories_settings (hkept : ∀ line ∈ configLines file, KeptLine fullPath line) :
    (loadRepositories fullPath file).map RepositoryEntry.setting =
      loadedSettings (((configLines file).filterMap entrySetting).take maxRepositories) := by
  have hfold := @foldl_loadLine fullPath _ hkept [] (Nat.zero_le _)
  rw [List.map_nil, List.nil_append] at hfold
  rw [← hfold, loadRepositories, loadedSettings]
  generalize (configLines file).foldl (loadLine fullPath) [] = result
  have hany : ((result.map RepositoryEntry.setting).any fun r => r.1 = fold defaultRepository) =
      result.any fun r => fold r.url = fold defaultRepository := by
    rw [List.any_map]
    rfl
  rw [hany, List.length_map]
  split_ifs
  · rfl
  · rw [List.map_append]
    rfl

/-- The round trip in terms of what is loaded. -/
lemma roundTrip_iff : RoundTrip fullPath commands file ↔ ∀ root,
    (((loadRepositories fullPath file).map RepositoryEntry.setting).filter
      fun r => r.1 = root).map Prod.snd = (expectedRoot fullPath commands root).toList := by
  refine forall_congr' fun root => ?_
  rw [List.filter_map, List.map_map]
  rfl

/-- What is loaded of roots that are configured once each. -/
lemma filter_loadedSettings {roots : List (Bytes × ℤ × Bool)} (honce : Bindings.Once roots)
    (hroom : roots.length < maxRepositories ∨
      roots.length = maxRepositories ∧ Bindings.Binds roots (fold defaultRepository))
    (root : Bytes) :
    ((loadedSettings roots).filter fun r => r.1 = root).map Prod.snd =
      ((Bindings.last root roots).or
        (if root = fold defaultRepository then some (0, false) else none)).toList := by
  have hany : (roots.any fun r => r.1 = fold defaultRepository) = true ↔
      Bindings.Binds roots (fold defaultRepository) := by
    rw [List.any_eq_true]
    exact exists_congr fun r => and_congr_right fun _ => decide_eq_true_iff
  by_cases hbinds : Bindings.Binds roots (fold defaultRepository)
  · rw [loadedSettings, if_pos (.inl (hany.2 hbinds)), honce.filter_eq]
    split_ifs with hroot
    · obtain ⟨v, hv⟩ := Option.ne_none_iff_exists'.1 (Bindings.last_ne_none_iff.2 hbinds)
      rw [hroot, hv]
      rfl
    · rw [Option.or_none]
  · have hlength : roots.length < maxRepositories := hroom.resolve_right fun h => hbinds h.2
    have hnew : Bindings.Once (roots ++ [(fold defaultRepository, (0 : ℤ), false)]) := by
      unfold Bindings.Once
      rw [List.map_append]
      refine List.nodup_append.2 ⟨honce, by simp, ?_⟩
      intro a ha b hb hab
      obtain ⟨r, hr, hra⟩ := List.mem_map.1 ha
      exact hbinds ⟨r, hr, (hra.trans hab).trans (by simpa using hb)⟩
    rw [loadedSettings, if_neg (not_or.2 ⟨mt hany.1 hbinds, Nat.not_le.2 hlength⟩), hnew.filter_eq,
      Bindings.last_append_singleton]
    by_cases hroot : root = fold defaultRepository
    · have hnone : Bindings.last root roots = none := by
        by_contra h
        exact hbinds (hroot ▸ Bindings.last_ne_none_iff.1 h)
      rw [if_pos hroot.symm, if_pos hroot, hnone]
      rfl
    · rw [if_neg (Ne.symm hroot), if_neg hroot, Option.or_none]

/-- **The configuration of the repositories round-trips** in every run whose additions come back as
they are, exactly if there is room for the repositories. -/
theorem repoRun_roundTrip (hrun : RepoRun fullPath commands file)
    (hkeeps : ∀ command ∈ commands, ∀ change, command.change fullPath = some change →
      change.Keeps fullPath) :
    RoundTrip fullPath commands file ↔ RoomForRoots fullPath commands := by
  obtain ⟨hkept, hbindings, honce, hlast⟩ := hrun.kept hkeeps
  rw [roundTrip_iff, loadRepositories_settings hkept, hbindings, RoomForRoots, ← hlast,
    Bindings.last_ne_none_iff]
  unfold expectedRoot
  simp only [← hlast]
  generalize configuredRoots fullPath commands = roots at honce
  constructor
  · intro hloaded
    by_contra hroom
    rw [not_or, not_lt, not_and] at hroom
    obtain ⟨hmany, hdefault⟩ := hroom
    -- of more roots than there is room for, the first ones are loaded and nothing else
    have hlength : (roots.take maxRepositories).length = maxRepositories := by
      rw [List.length_take]
      omega
    rw [loadedSettings, if_pos (.inr hlength.ge)] at hloaded
    have hbinds : ∀ root, Bindings.Binds roots root ∨ root = fold defaultRepository →
        Bindings.Binds (roots.take maxRepositories) root := by
      intro root hroot
      by_contra hnot
      have hnil : (roots.take maxRepositories).filter (fun r => r.1 = root) = [] :=
        List.filter_eq_nil_iff.2 fun r hr h => hnot ⟨r, hr, of_decide_eq_true h⟩
      have hnone := hloaded root
      rw [hnil, List.map_nil, eq_comm, Option.toList_eq_nil_iff, Option.or_eq_none_iff] at hnone
      rcases hroot with hroot | hroot
      · exact Bindings.last_ne_none_iff.2 hroot hnone.1
      · rw [if_pos hroot] at hnone
        exact absurd hnone.2 (by simp)
    have hsub : roots.map Prod.fst ⊆ (roots.take maxRepositories).map Prod.fst := by
      intro root hroot
      obtain ⟨r, hr, rfl⟩ := List.mem_map.1 hroot
      obtain ⟨r', hr', hkey⟩ := hbinds r.1 (.inl ⟨r, hr, rfl⟩)
      exact List.mem_map.2 ⟨r', hr', hkey⟩
    have hle := (List.Nodup.subperm honce hsub).length_le
    rw [List.length_map, List.length_map, hlength] at hle
    obtain ⟨r, hr, hkey⟩ := hbinds _ (.inr rfl)
    exact hdefault (Nat.le_antisymm hle hmany) ⟨r, List.mem_of_mem_take hr, hkey⟩
  · intro hroom root
    have hall : roots.take maxRepositories = roots := by
      refine List.take_of_length_le ?_
      rcases hroom with h | h
      · exact Nat.le_of_lt h
      · exact Nat.le_of_eq h.1
    rw [hall]
    exact filter_loadedSettings honce hroom root

end Loading

/-- A server that is added twice, and one that is removed again. -/
def sampleRepoCommands : List RepoCommand :=
  [.add (str "https://a.example/") 10 false, .add (str "http://b.example") (-1) true,
    .add (str "HTTPS://A.example") 5 false, .remove (str "http://B.example/")]

/-- No path is added. -/
def noPath (_ : Bytes) : Option Bytes := none

lemma sampleRepoCommands_run :
    RepoRun noPath sampleRepoCommands (some (str "5\tHTTPS://A.example\r\n")) :=
  .step .fine (.remove (str "http://B.example/"))
    (.step .fine (.add (str "HTTPS://A.example") 5 false)
      (.step .fine (.add (str "http://b.example") (-1) true)
        (.step .fine (.add (str "https://a.example/") 10 false) .start rfl (Outcome.sound_fine _ _)
          (by decide : _ = (true, some (str "10\thttps://a.example\r\n"))))
        rfl (Outcome.sound_fine _ _)
        (by decide : _ = (true, some (str
          "10\thttps://a.example\r\n-1\thttp://b.example\tallow-insecure-http=true\r\n"))))
      rfl (Outcome.sound_fine _ _)
      (by decide : _ = (true, some (str
        "5\tHTTPS://A.example\r\n-1\thttp://b.example\tallow-insecure-http=true\r\n"))))
    rfl (Outcome.sound_fine _ _) (by decide)

lemma sampleRepoCommands_keeps : ∀ command ∈ sampleRepoCommands, ∀ change,
    command.change noPath = some change → change.Keeps noPath := by
  have hall : ∀ command ∈ sampleRepoCommands, ∃ change, command.change noPath = some change ∧
      change.Keeps noPath := by
    intro command hcommand
    simp only [sampleRepoCommands, List.mem_cons, List.not_mem_nil, or_false] at hcommand
    rcases hcommand with rfl | rfl | rfl | rfl
    · exact ⟨_, rfl, fun _ => ⟨by decide, by decide, fun h => absurd h (by decide)⟩⟩
    · exact ⟨_, rfl, fun _ => ⟨by decide, by decide, fun h => absurd h (by decide)⟩⟩
    · exact ⟨_, rfl, fun _ => ⟨by decide, by decide, fun h => absurd h (by decide)⟩⟩
    · exact ⟨_, rfl, fun h => absurd h Bool.false_ne_true.symm⟩
  intro command hcommand change hchange
  obtain ⟨change', hchange', hkeeps⟩ := hall command hcommand
  obtain rfl := Option.some.inj (hchange'.symm.trans hchange)
  exact hkeeps

theorem repoRun_roundTrip_sample :
    RoundTrip noPath sampleRepoCommands (some (str "5\tHTTPS://A.example\r\n")) :=
  (repoRun_roundTrip sampleRepoCommands_run sampleRepoCommands_keeps).2 (.inl (by decide))

/-- What a full path is made of one: blanks and periods at its end are dropped. -/
def withoutBlanks (path : Bytes) : Option Bytes :=
  some (path.rdropWhile fun c => c = ch ' ' ∨ c = ch '.')

/-- **A directory whose name ends in a blank is lost**: the separator behind it is dropped when it is
added, and the blank when it is loaded, so that the line counts as altered. -/
theorem repo_loses_path : ∃ file,
    (∀ path full, withoutBlanks path = some full → withoutBlanks full = some full) ∧
      RepoRun withoutBlanks [.add (str "C:\\pkgs \\") 0 false] file ∧
      (∀ r ∈ loadRepositories withoutBlanks file, r.url = defaultRepository) ∧
      ¬RoundTrip withoutBlanks [.add (str "C:\\pkgs \\") 0 false] file := by
  refine ⟨some (str "0\tC:\\pkgs \r\n"), ?_,
    .step .fine (.add (str "C:\\pkgs \\") 0 false) .start rfl (Outcome.sound_fine _ _)
      (by decide), by decide, fun h => ?_⟩
  · rintro path full hfull
    obtain rfl := Option.some.inj hfull
    exact congrArg some (List.rdropWhile_idempotent _ path)
  · exact absurd (h (str "c:\\pkgs ")) (by decide)

end Wpm.Repository
