import Wpm.Repository.Catalog
import Wpm.Repository.Configuration
import Mathlib.Logic.Function.Basic

/-!
The cached indexes of the repositories.

The file of a cached index is named by a hash of the root that it is for, of 32 bits. A file that is
parsed for a root has been retrieved for one with the same file (`Honest`): so it is the root's own
as long as no two roots that the commands go to share a file (`cache_attributed`). There are roots
that do (`cache_confused`).
-/

namespace Wpm.Repository.IndexCache

open Wpm.Lib Wpm.Lib.CString Wpm.JsonInput
open Wpm.Archive (pathSize)

/-! ### Names -/

/-- The loop of `cache_path`: FNV-1a, of 32 bits. -/
def urlHash (url : Bytes) : UInt32 :=
  url.foldl (fun hash c => (hash ^^^ c.toUInt32) * 16777619) 2166136261

/-- The format `%08lx`. -/
def printHash (hash : UInt32) : Bytes :=
  bin2hex [(hash >>> 24).toUInt8, (hash >>> 16).toUInt8, (hash >>> 8).toUInt8, hash.toUInt8]

/-- `cache_path`, cut off by `snprintf` where the buffer ends. -/
def cachePath (dataRoot url : Bytes) : Bytes :=
  (dataRoot ++ str "\\cache\\repositories\\" ++ printHash (urlHash url) ++ str ".json").take
    (pathSize - 1)

/-- The name of the candidate. -/
def candidatePath (dataRoot url : Bytes) : Bytes := cachePath dataRoot url ++ str ".candidate"

/-- **Where the index of a root is.** -/
def ownIndex (root : Bytes) : Bytes :=
  if isWebRepository root then root ++ str "/index.json"
  else root ++ (if root.getLastD 0 = ch '\\' then [] else [ch '\\']) ++ str "index.json"

/-! ### The cache -/

/-- A file of the cache, with the root that it has been retrieved for and where from. -/
structure CachedIndex where
  text : Bytes
  root : Bytes
  source : Bytes
  deriving DecidableEq

/-- How the calls of a turn go: `partialText` is what a retrieval that fails leaves behind, and
`directory` is the text of the index of a directory. -/
structure Answer where
  fresh : Bool
  prepared : Bool
  ready : Bool
  retrieved : Option Bytes
  partialText : Option Bytes
  published : Bool
  deleted : Bool
  opened : Bool
  directory : Option Bytes

/-- The configuration and the files of the cache, with the number of the turn. The roots that the
commands go to are kept, and so is each file that has been parsed or deleted for one of them. -/
structure Cache where
  config : Option Bytes
  files : Bytes → Option CachedIndex
  turn : ℕ
  roots : List Bytes
  parsed : List (Bytes × CachedIndex)
  deleted : List (Bytes × CachedIndex)

/-- The cache that has nothing in it. -/
def Cache.empty (config : Option Bytes) : Cache where
  config := config
  files := fun _ => none
  turn := 0
  roots := []
  parsed := []
  deleted := []

def Cache.put (c : Cache) (path : Bytes) (file : Option CachedIndex) : Cache :=
  { c with files := Function.update c.files path file }

/-- The turn of a root. -/
def Cache.visit (c : Cache) (root : Bytes) : Cache :=
  { c with turn := c.turn + 1, roots := c.roots ++ [root] }

variable (dataRoot : Bytes) (fullPath : Bytes → Option Bytes) (answers : ℕ → Answer)

/-- The candidate of a refresh that fails is deleted. -/
def Answer.drop (a : Answer) (url : Bytes) (c : Cache) : Cache :=
  if a.deleted then c.put (candidatePath dataRoot url) none else c

/-- The part of `refresh` that retrieves a candidate and publishes it. -/
def Answer.retrieve (a : Answer) (url : Bytes) (c : Cache) : Bool × Cache :=
  match indexSource url with
  | none => (false, c)
  | some source =>
    if a.prepared = false then (false, c)
    else if a.ready = false then (false, a.drop dataRoot url c)
    else match a.retrieved with
      | none =>
        (false, a.drop dataRoot url <| match a.partialText with
          | none => c
          | some text => c.put (candidatePath dataRoot url) (some ⟨text, url, source⟩))
      | some text =>
        let c := c.put (candidatePath dataRoot url) (some ⟨text, url, source⟩)
        if indexFileSupported text ∧ a.published then
          (true, (c.put (cachePath dataRoot url) (some ⟨text, url, source⟩)).put
            (candidatePath dataRoot url) none)
        else (false, a.drop dataRoot url c)

/-- `refresh`. -/
def Answer.refresh (a : Answer) (offline required : Bool) (url : Bytes) (c : Cache) :
    Bool × Cache :=
  let present := (c.files (cachePath dataRoot url)).isSome
  if offline ∧ isWebRepository url then (present, c)
  else if required = false ∧ isWebRepository url ∧ a.fresh ∧ present then (true, c)
  else if pathSize ≤ (candidatePath dataRoot url).length then (false, c)
  else match a.retrieve dataRoot url c with
    | (true, c) => (true, c)
    | (false, c) =>
      (isWebRepository url && (c.files (cachePath dataRoot url)).isSome, c)

/-- `wpm_is_readonly`, `wpm_operation_active` and `wpm_operation_collecting`. -/
structure Mode where
  readonly : Bool
  active : Bool
  collecting : Bool

/-- The index is read where it is, and not refreshed. -/
def Mode.direct (mode : Mode) (url : Bytes) : Bool :=
  mode.readonly || (mode.active && (!isWebRepository url || !mode.collecting))

/-- The cached index of a root is opened to be parsed. -/
def Answer.openCached (a : Answer) (url : Bytes) (c : Cache) : Option Bytes × Cache :=
  match c.files (cachePath dataRoot url) with
  | none => (none, c)
  | some file =>
    if a.opened then (some file.text, { c with parsed := c.parsed ++ [(url, file)] })
    else (none, c)

/-- The document that `load_entries` parses for a repository. -/
def readIndex (mode : Mode) (offline required : Bool) (r : RepositoryEntry) (c : Cache) :
    Option Bytes × Cache :=
  let a := answers c.turn
  let c := c.visit r.url
  if mode.direct r.url then
    if isWebRepository r.url then a.openCached dataRoot r.url c
    else if (indexSource r.url).isSome then (a.directory, c)
    else (none, c)
  else match a.refresh dataRoot offline required r.url c with
    | (true, c) => a.openCached dataRoot r.url c
    | (false, c) => (none, c)

/-! ### The commands -/

inductive Command
  | add (url : Bytes) (priority : ℤ) (allowInsecureHttp : Bool) (calls : Outcome)
  | remove (url : Bytes) (calls : Outcome)
  | refresh (r : RepositoryEntry) (offline required : Bool)
  | load (mode : Mode) (offline required : Bool)

/-- The end of `wpm_repo_remove`: the cached index of the root is deleted. -/
def Answer.deleteCached (a : Answer) (url : Bytes) (c : Cache) : Cache :=
  match c.files (cachePath dataRoot url) with
  | none => c
  | some file =>
    if a.deleted then
      { c.put (cachePath dataRoot url) none with deleted := c.deleted ++ [(url, file)] }
    else c

/-- What a command does. -/
def step (c : Cache) : Command → Cache
  | .add url priority allowInsecureHttp calls =>
    match repoAdd fullPath url priority allowInsecureHttp with
    | none => c
    | some change => { c with config := (rewrite calls change c.config).2 }
  | .remove url calls =>
    match repoRemove fullPath url with
    | none => c
    | some change =>
      let c' := { c.visit change.wanted with config := (rewrite calls change c.config).2 }
      if (rewrite calls change c.config).1 then
        (answers c.turn).deleteCached dataRoot change.wanted c'
      else c'
  | .refresh r offline required =>
    ((answers c.turn).refresh dataRoot offline required r.url (c.visit r.url)).2
  | .load mode offline required =>
    match loadEntries fullPath (readIndex dataRoot answers mode offline required) c.config c with
    | none => c
    | some v => v.state

/-- A sequence of commands, with a cache that has nothing in it. -/
def run (config : Option Bytes) (commands : List Command) : Cache :=
  commands.foldl (step dataRoot fullPath answers) (.empty config)

/-- **Every cached index is attributed to the right repository**: what is parsed for a root has been
retrieved from where its own index is, and what is deleted with a root has been retrieved for it. -/
structure RightlyAttributed (c : Cache) : Prop where
  parsed : ∀ p ∈ c.parsed, p.2.source = ownIndex p.1
  deleted : ∀ p ∈ c.deleted, p.2.root = p.1

/-- No two of the roots share a file of the cache, and the address of the index of none of them is
too long for its buffer. -/
structure Apart (roots : List Bytes) : Prop where
  distinct : ∀ a ∈ roots, ∀ b ∈ roots, cachePath dataRoot a = cachePath dataRoot b → a = b
  fits : ∀ a ∈ roots, isWebRepository a = true → (a ++ str "/index.json").length < pathSize

/-! ### What the cache has -/

variable {dataRoot} {fullPath} {answers} {c c' : Cache} {url root : Bytes} {file : CachedIndex}

/-- The file may be parsed for the root: it has been retrieved for one that shares its name. -/
structure Filed (dataRoot : Bytes) (roots : List Bytes) (root : Bytes) (file : CachedIndex) :
    Prop where
  mem : file.root ∈ roots
  path : cachePath dataRoot file.root = cachePath dataRoot root
  source : indexSource file.root = some file.source

/-- What holds of the cache after any commands. -/
structure Honest (dataRoot : Bytes) (c : Cache) : Prop where
  files : ∀ root file, c.files (cachePath dataRoot root) = some file →
    Filed dataRoot c.roots root file
  parsed : ∀ p ∈ c.parsed, p.1 ∈ c.roots ∧ Filed dataRoot c.roots p.1 p.2
  deleted : ∀ p ∈ c.deleted, p.1 ∈ c.roots ∧ Filed dataRoot c.roots p.1 p.2

lemma Filed.mono {roots roots' : List Bytes} (h : Filed dataRoot roots root file)
    (hroots : ∀ r ∈ roots, r ∈ roots') : Filed dataRoot roots' root file :=
  ⟨hroots _ h.mem, h.path, h.source⟩

/-- The names of the cached indexes are all of the same length. -/
lemma length_cachePath (url : Bytes) : (cachePath dataRoot url).length =
    min (pathSize - 1) (dataRoot.length + 33) := by
  have hhash : (printHash (urlHash url)).length = 8 := rfl
  have hname : (str "\\cache\\repositories\\").length = 20 := by decide
  have hend : (str ".json").length = 5 := by decide
  rw [cachePath, List.length_take, List.length_append, List.length_append, List.length_append,
    hhash, hname, hend]

lemma Cache.put_files_self (path : Bytes) (file : Option CachedIndex) :
    (c.put path file).files path = file := Function.update_self ..

lemma Cache.put_files_of_ne {path path' : Bytes} (h : path' ≠ path) (file : Option CachedIndex) :
    (c.put path file).files path' = c.files path' := Function.update_of_ne h ..

/-- A candidate is no cached index. -/
lemma candidatePath_ne (url root : Bytes) :
    candidatePath dataRoot url ≠ cachePath dataRoot root := by
  intro h
  have hlen := congrArg List.length h
  have hend : (str ".candidate").length = 10 := by decide
  rw [candidatePath, List.length_append, length_cachePath, length_cachePath, hend] at hlen
  omega

lemma drop_roots (a : Answer) : (a.drop dataRoot url c).roots = c.roots := by
  unfold Answer.drop
  split_ifs <;> rfl

lemma retrieve_roots (a : Answer) : (a.retrieve dataRoot url c).2.roots = c.roots := by
  unfold Answer.retrieve
  cases indexSource url with
  | none => rfl
  | some source =>
    dsimp only
    split_ifs
    · rfl
    · exact drop_roots a
    · cases a.retrieved with
      | none => cases a.partialText <;> exact drop_roots a
      | some text =>
        dsimp only
        split_ifs
        · rfl
        · exact drop_roots a

/-- A refresh goes to no other root. -/
lemma refresh_roots (a : Answer) (offline required : Bool) :
    (a.refresh dataRoot offline required url c).2.roots = c.roots := by
  have hretrieve := @retrieve_roots dataRoot c url a
  unfold Answer.refresh
  dsimp only
  split_ifs
  · rfl
  · rfl
  · rfl
  · split
    · rename_i c₁ heq
      rwa [heq] at hretrieve
    · rename_i c₁ heq
      rwa [heq] at hretrieve

namespace Honest

lemma empty (config : Option Bytes) : Honest dataRoot (.empty config) where
  files := fun _ _ h => absurd h.symm (Option.some_ne_none _)
  parsed := fun _ h => absurd h List.not_mem_nil
  deleted := fun _ h => absurd h List.not_mem_nil

/-- The roots that the commands go to only become more. -/
lemma visit (h : Honest dataRoot c) (root : Bytes) : Honest dataRoot (c.visit root) := by
  have hroots : ∀ r ∈ c.roots, r ∈ (c.visit root).roots := fun r hr => List.mem_append_left _ hr
  exact ⟨fun r file hfile => (h.files r file hfile).mono hroots,
    fun p hp => ⟨hroots _ (h.parsed p hp).1, (h.parsed p hp).2.mono hroots⟩,
    fun p hp => ⟨hroots _ (h.deleted p hp).1, (h.deleted p hp).2.mono hroots⟩⟩

/-- A candidate does not count. -/
lemma put_candidate (h : Honest dataRoot c) (url : Bytes) (file : Option CachedIndex) :
    Honest dataRoot (c.put (candidatePath dataRoot url) file) where
  files := by
    intro root file' hfile
    have hne : cachePath dataRoot root ≠ candidatePath dataRoot url :=
      (candidatePath_ne url root).symm
    rw [Cache.put_files_of_ne hne] at hfile
    exact h.files root file' hfile
  parsed := h.parsed
  deleted := h.deleted

/-- A file that has been retrieved for a root is put under its name. -/
lemma put_cached (h : Honest dataRoot c) {text source : Bytes} (hurl : url ∈ c.roots)
    (hsource : indexSource url = some source) :
    Honest dataRoot (c.put (cachePath dataRoot url) (some ⟨text, url, source⟩)) where
  files := by
    intro root file hfile
    by_cases heq : cachePath dataRoot root = cachePath dataRoot url
    · rw [heq, Cache.put_files_self] at hfile
      rw [← Option.some.inj hfile]
      exact ⟨hurl, heq.symm, hsource⟩
    · rw [Cache.put_files_of_ne heq] at hfile
      exact h.files root file hfile
  parsed := h.parsed
  deleted := h.deleted

lemma drop (h : Honest dataRoot c) (a : Answer) (url : Bytes) :
    Honest dataRoot (a.drop dataRoot url c) := by
  unfold Answer.drop
  split_ifs
  · exact h.put_candidate url none
  · exact h

lemma retrieve (h : Honest dataRoot c) (hurl : url ∈ c.roots) (a : Answer) :
    Honest dataRoot (a.retrieve dataRoot url c).2 := by
  unfold Answer.retrieve
  cases hsource : indexSource url with
  | none => exact h
  | some source =>
    dsimp only
    split_ifs
    · exact h
    · exact h.drop a url
    · cases a.retrieved with
      | none =>
        refine Honest.drop ?_ a url
        cases a.partialText with
        | none => exact h
        | some text => exact h.put_candidate url _
      | some text =>
        have hcandidate := h.put_candidate url (some ⟨text, url, source⟩)
        dsimp only
        split_ifs
        · exact (hcandidate.put_cached hurl hsource).put_candidate url none
        · exact hcandidate.drop a url

lemma refresh (h : Honest dataRoot c) (hurl : url ∈ c.roots) (a : Answer)
    (offline required : Bool) : Honest dataRoot (a.refresh dataRoot offline required url c).2 := by
  have hretrieve := h.retrieve hurl a
  unfold Answer.refresh
  dsimp only
  split_ifs
  · exact h
  · exact h
  · exact h
  · split
    · rename_i c₁ heq
      rwa [heq] at hretrieve
    · rename_i c₁ heq
      rwa [heq] at hretrieve

/-- **A file is parsed for a root** only under the root's own name. -/
lemma openCached (h : Honest dataRoot c) (hurl : url ∈ c.roots) (a : Answer) :
    Honest dataRoot (a.openCached dataRoot url c).2 := by
  unfold Answer.openCached
  cases hfile : c.files (cachePath dataRoot url) with
  | none => exact h
  | some file =>
    dsimp only
    split_ifs
    · refine ⟨h.files, fun p hp => ?_, h.deleted⟩
      rcases List.mem_append.1 hp with hp | hp
      · exact h.parsed p hp
      · obtain rfl := List.mem_singleton.1 hp
        exact ⟨hurl, h.files url file hfile⟩
    · exact h

/-- **A file is deleted with a root** only under the root's own name. -/
lemma deleteCached (h : Honest dataRoot c) (hurl : url ∈ c.roots) (a : Answer) :
    Honest dataRoot (a.deleteCached dataRoot url c) := by
  unfold Answer.deleteCached
  cases hfile : c.files (cachePath dataRoot url) with
  | none => exact h
  | some file =>
    dsimp only
    split_ifs
    · refine ⟨fun root file' hfile' => ?_, h.parsed, fun p hp => ?_⟩
      · replace hfile' : (c.put (cachePath dataRoot url) none).files (cachePath dataRoot root) =
          some file' := hfile'
        by_cases heq : cachePath dataRoot root = cachePath dataRoot url
        · rw [heq, Cache.put_files_self] at hfile'
          exact absurd hfile'.symm (Option.some_ne_none _)
        · rw [Cache.put_files_of_ne heq] at hfile'
          exact h.files root file' hfile'
      · rcases List.mem_append.1 hp with hp | hp
        · exact h.deleted p hp
        · obtain rfl := List.mem_singleton.1 hp
          exact ⟨hurl, h.files url file hfile⟩
    · exact h

lemma readIndex (h : Honest dataRoot c) (mode : Mode) (offline required : Bool)
    (r : RepositoryEntry) :
    Honest dataRoot (readIndex dataRoot answers mode offline required r c).2 := by
  have hvisit := h.visit r.url
  have hurl : r.url ∈ (c.visit r.url).roots := List.mem_append_right _ (List.mem_singleton_self _)
  have hrefresh := hvisit.refresh hurl (answers c.turn) offline required
  have hroots := @refresh_roots dataRoot (c.visit r.url) r.url (answers c.turn) offline required
  unfold IndexCache.readIndex
  dsimp only
  split_ifs
  · exact hvisit.openCached hurl (answers c.turn)
  · exact hvisit
  · exact hvisit
  · split
    · rename_i c₁ heq
      rw [heq] at hrefresh hroots
      exact hrefresh.openCached (hroots ▸ hurl) (answers c.turn)
    · rename_i c₁ heq
      rwa [heq] at hrefresh

/-- The loop of `load_entries` goes from one turn's cache to the next. -/
lemma loadTurn {v : Survey Cache} (h : Honest dataRoot v.state) (mode : Mode)
    (offline required : Bool) (i : ℕ) (r : RepositoryEntry) :
    Honest dataRoot (loadTurn fullPath
      (IndexCache.readIndex dataRoot answers mode offline required) i r v).state := by
  have hread := @Honest.readIndex dataRoot answers v.state h mode offline required r
  unfold Repository.loadTurn Survey.readDocument
  cases (IndexCache.readIndex dataRoot answers mode offline required r v.state).1 with
  | none => exact hread
  | some text =>
    dsimp only
    cases parseIndex fullPath r text v.entries v.repositories with
    | none => exact hread
    | some result => exact hread

/-- **A command leaves the cache honest.** -/
lemma step (h : Honest dataRoot c) (command : Command) :
    Honest dataRoot (step dataRoot fullPath answers c command) := by
  cases command with
  | add url priority allowInsecureHttp calls =>
    unfold IndexCache.step
    dsimp only
    cases repoAdd fullPath url priority allowInsecureHttp with
    | none => exact h
    | some change => exact ⟨h.files, h.parsed, h.deleted⟩
  | remove url calls =>
    unfold IndexCache.step
    dsimp only
    cases repoRemove fullPath url with
    | none => exact h
    | some change =>
      have hvisit := h.visit change.wanted
      have hconfig : Honest dataRoot
          { c.visit change.wanted with config := (rewrite calls change c.config).2 } :=
        ⟨hvisit.files, hvisit.parsed, hvisit.deleted⟩
      dsimp only
      split_ifs
      · exact hconfig.deleteCached
          (List.mem_append_right _ (List.mem_singleton_self change.wanted)) _
      · exact hconfig
  | refresh r offline required =>
    exact (h.visit r.url).refresh (List.mem_append_right _ (List.mem_singleton_self r.url)) _ _ _
  | load mode offline required =>
    have hloop : ∀ i v, Worklist.Reached Survey.repositories
        (Repository.loadTurn fullPath (IndexCache.readIndex dataRoot answers mode offline required))
        (.start fullPath c.config c) i v → Honest dataRoot v.state := by
      intro i v hreached
      induction hreached with
      | start => exact h
      | turn _ _ ih => exact ih.loadTurn mode offline required _ _
    unfold IndexCache.step
    dsimp only
    split
    · exact h
    · rename_i v hload
      obtain ⟨i, hreached, -⟩ := Worklist.Reached.start.of_walk hload
      exact hloop i v hreached

/-- **The cache is honest after any commands.** -/
lemma run (config : Option Bytes) (commands : List Command) :
    Honest dataRoot (run dataRoot fullPath answers config commands) := by
  have hfold : ∀ c, Honest dataRoot c →
      Honest dataRoot (commands.foldl (IndexCache.step dataRoot fullPath answers) c) := by
    induction commands with
    | nil => exact fun _ h => h
    | cons command commands ih => exact fun c h => ih _ (h.step command)
  exact hfold _ (.empty config)

end Honest

/-- An index is retrieved from where the root has its own, when the address is not cut off. -/
lemma indexSource_eq {source : Bytes} (h : indexSource root = some source)
    (hfits : isWebRepository root = true → (root ++ str "/index.json").length < pathSize) :
    source = ownIndex root := by
  unfold indexSource at h
  unfold ownIndex
  by_cases hweb : isWebRepository root = true
  · have := hfits hweb
    rw [if_pos hweb, List.take_of_length_le (by omega)] at h
    rw [if_pos hweb]
    exact (Option.some.inj h).symm
  · rw [if_neg hweb, joinPath, ite_eq_iff] at h
    rw [if_neg hweb]
    obtain ⟨-, h⟩ | ⟨-, h⟩ := h
    · exact (Option.some.inj h).symm
    · exact absurd h (Option.some_ne_none _).symm

/-- **Cached indexes are attributed to the right repository**, after any commands, as long as no two
of the roots that these go to share a file of the cache and the addresses of their indexes fit. -/
theorem cache_attributed (config : Option Bytes) (commands : List Command)
    (hapart : Apart dataRoot (run dataRoot fullPath answers config commands).roots) :
    RightlyAttributed (run dataRoot fullPath answers config commands) := by
  have hhonest : Honest dataRoot (run dataRoot fullPath answers config commands) :=
    .run config commands
  refine ⟨fun p hp => ?_, fun p hp => ?_⟩
  · obtain ⟨hmem, hfiled⟩ := hhonest.parsed p hp
    have hroot := hapart.distinct _ hfiled.mem _ hmem hfiled.path
    rw [← hroot]
    exact indexSource_eq hfiled.source (hapart.fits _ hfiled.mem)
  · obtain ⟨hmem, hfiled⟩ := hhonest.deleted p hp
    exact hapart.distinct _ hfiled.mem _ hmem hfiled.path

/-! ### Two roots that share a file -/

/-- Two repositories on different servers. -/
def samplePair : RepositoryEntry × RepositoryEntry :=
  (⟨str "https://beta.example/north608", 0, 0, false⟩,
    ⟨str "https://delta.example/west880", 0, 1, false⟩)

/-- The configuration that has the repositories. -/
def sampleFile (repositories : List RepositoryEntry) : Option Bytes :=
  some (repositories.flatMap fun r => entryLine r.priority r.url r.allowInsecureHttp)

/-- Every retrieval gets an index that lists nothing, and no call fails. -/
def sampleAnswers (_ : ℕ) : Answer where
  fresh := false
  prepared := true
  ready := true
  retrieved := some (str "\x7b\"version\":1,\"packages\":[]\x7d")
  partialText := none
  published := true
  deleted := true
  opened := true
  directory := none

/-- The first repository is refreshed, and then one command more is run. -/
def sampleRun (repositories : List RepositoryEntry) (command : Command) : Cache :=
  run (str "C:\\ProgramData\\wpm") (fun _ => none) sampleAnswers (sampleFile repositories)
    [.refresh samplePair.1 false true, command]

/-- The index of the first repository, in the cache. -/
def sampleIndex : CachedIndex :=
  ⟨str "\x7b\"version\":1,\"packages\":[]\x7d", samplePair.1.url,
    samplePair.1.url ++ str "/index.json"⟩

theorem cache_attributed_sample :
    RightlyAttributed (sampleRun [samplePair.1] (.load ⟨false, false, false⟩ true false)) :=
  cache_attributed _ _ ⟨by decide +kernel, by decide +kernel⟩

/-- **The index of one server is parsed as that of another**, and is deleted with it. -/
theorem cache_confused :
    ¬ RightlyAttributed (sampleRun [samplePair.1, samplePair.2]
        (.load ⟨false, false, false⟩ true false)) ∧
      ¬ RightlyAttributed (sampleRun [samplePair.1, samplePair.2]
        (.remove samplePair.2.url .fine)) := by
  refine ⟨fun h => ?_, fun h => ?_⟩
  · have hparsed := h.parsed (samplePair.2.url, sampleIndex) (by decide +kernel)
    exact absurd hparsed (by decide +kernel)
  · have hdeleted := h.deleted (samplePair.2.url, sampleIndex) (by decide +kernel)
    exact absurd hdeleted (by decide +kernel)

end Wpm.Repository.IndexCache
