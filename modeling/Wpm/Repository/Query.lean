import Wpm.Lib.JsonText
import Wpm.JsonOutput
import Wpm.Repository.Catalog
import Wpm.Repository.IndexCache

/-!
The queries whose result is one JSON document: `wpm list`, `wpm show` and `wpm repo diagnose`, each
with `--json`.

The document is printed piece by piece while the files are read, and an event is printed to the same
output. Such an event is the warning of `load_repositories`, which only `wpm repo diagnose` has
silenced.
-/

namespace Wpm.Repository

open Wpm.Lib.CString Wpm.Lib.Worklist Wpm.Lib.Decimal Wpm.Operation Wpm.JsonInput
open Wpm.Lib.Json (commas objectText arrayText)
open Wpm.JsonOutput (encodeString redactText)
open Wpm.Archive (pathSize)

/-! ### What the queries find -/

/-- An archive of the packages directory: whether it is an ordinary file, whether it can be opened,
and what `wpm_archive_inspect` says of it. -/
structure FoundArchive where
  file : Bytes
  ordinary : Bool
  opens : Bool
  info : Option PackageInfo

/-- The packages directory: it is not there, or its attributes are not to be had, or it is no
ordinary directory, or the search in it finds nothing, is refused, or comes to archives, and then
`whole` says that it ends as there are no more. -/
inductive StoreFiles
  | absent | hidden | unusual | empty | refused
  | archives (found : List FoundArchive) (whole : Bool)

/-- The files as a query finds them. `catalog` is what `query_catalog_document` reads at a path, and
`document` what is read with `wpm_fopen`. -/
structure QueryFiles where
  dataRoot : Option Bytes
  config : Option Bytes
  configPresent : Bool
  catalog : Bytes → Option Bytes
  document : Bytes → Option Bytes
  present : Bytes → Bool
  fresh : Bytes → Bool
  policy : Option Bytes
  store : StoreFiles
  /-- The output is coloured by escape sequences. -/
  coloured : Bool

variable (fullPath : Bytes → Option Bytes) (files : QueryFiles)

/-- `wpm_event_printf` of a warning, when no sink is set. -/
def printWarning (coloured : Bool) (message : Bytes) : Bytes :=
  if coloured then str "\x1b[93m" ++ redactText message ++ str "\x1b[0m" else redactText message

/-! ### The configuration -/

/-- The variables of `load_repositories`, when invalid lines are counted, with the number of
warnings. -/
structure LoadedRoots where
  repositories : List RepositoryEntry
  invalid : ℕ
  warnings : ℕ

/-- The locator of a line that is ignored with a warning. -/
def refusedLocator (url : Bytes) : Bool :=
  match repositoryNormalize fullPath url with
  | none => true
  | some normalized => !isWebRepository url && fold url ≠ fold normalized

/-- What is left of a line that `parse_entry` has refused: it puts a terminator over the first
tab. -/
def lineHead (line : Bytes) : Bytes := ((cutAt 9 line).map Prod.fst).getD line

/-- What `load_repositories` does with a line. -/
def LoadedRoots.read (loaded : LoadedRoots) (line : Bytes) : LoadedRoots :=
  match parseEntry line with
  | none =>
    let start := (lineHead line).dropWhile isSpace
    if start ≠ [] ∧ cur start ≠ ch '#' then { loaded with invalid := loaded.invalid + 1 }
    else loaded
  | some (priority, url, allowHttp) =>
    if refusedLocator fullPath url then
      { loaded with invalid := loaded.invalid + 1, warnings := loaded.warnings + 1 }
    else if maxRepositories ≤ loaded.repositories.length then
      { loaded with invalid := loaded.invalid + 1 }
    else
      { loaded with repositories := loaded.repositories ++
          [⟨(repositoryNormalize fullPath url).getD [], priority, loaded.repositories.length,
            allowHttp⟩] }

/-- The built-in repository is behind the others, if it is not among them and has room. -/
def addDefault (repositories : List RepositoryEntry) : List RepositoryEntry :=
  if (repositories.any fun r => fold r.url = fold defaultRepository) ∨
      maxRepositories ≤ repositories.length then repositories
  else repositories ++ [⟨defaultRepository, 0, repositories.length, false⟩]

/-- `config_path`. -/
def QueryFiles.configPath : Option Bytes :=
  files.dataRoot.bind fun root => joinPath root (str "config\\repositories.txt")

/-- `load_repositories` with a counter of invalid lines, none when it returns 0. -/
def loadCounted : Option LoadedRoots :=
  match files.configPath with
  | none => none
  | some _ =>
    let loaded := (configLines files.config).foldl (LoadedRoots.read fullPath) ⟨[], 0, 0⟩
    some { loaded with
      repositories := addDefault loaded.repositories
      invalid := loaded.invalid +
        if files.config.isNone ∧ files.configPresent then 1 else 0 }

/-- The warnings that are printed when the loading is not quiet. -/
def LoadedRoots.printed (loaded : LoadedRoots) (coloured : Bool) : Bytes :=
  (List.replicate loaded.warnings (printWarning coloured
    (str "Warning: invalid configured repository entry ignored.\n"))).flatten

/-! ### Links -/

/-- The repositories that a query comes to, with their parents and the number of issues. -/
structure Graph where
  repositories : List RepositoryEntry
  parents : List ℕ
  issues : ℕ

def Graph.issue (g : Graph) : Graph := { g with issues := g.issues + 1 }

/-- A link of repository `i`. -/
def Graph.link (i : ℕ) (r : RepositoryEntry) (g : Graph) (link : Bytes) : Graph :=
  match appendRepositoryLink fullPath g.repositories r link with
  | none => g.issue
  | some repositories =>
    { g with
      repositories := repositories
      parents := g.parents ++
        List.replicate (repositories.length - g.repositories.length) (i + 1) }

/-- The loop of `diagnose_links`. -/
def Graph.followFrom (i : ℕ) (r : RepositoryEntry) : ℕ → Bytes → Graph → Graph
  | 0, _, g => g
  | fuel + 1, p, g =>
    let p := jsonSpace p
    if cur p = 0 ∨ cur p = ch ']' then g
    else match readString true pathSize p with
      | none => g.issue
      | some (link, p) =>
        let p := jsonSpace p
        if cur p = ch ',' then Graph.followFrom i r fuel p.tail (g.link fullPath i r link)
        else g.link fullPath i r link

/-- `diagnose_links`: whether the document can be read, and the graph after it. -/
def Graph.follow (i : ℕ) (r : RepositoryEntry) (document : Option Bytes) (g : Graph) :
    Bool × Graph :=
  match document with
  | none => (false, g)
  | some text =>
    if !documentSupported text then (false, g)
    else match jsonField text (str "repositories") with
      | none => (true, g)
      | some p =>
        if cur p ≠ ch '[' then (true, g.issue)
        else (true, g.followFrom fullPath i r p.length p.tail)

/-- The links are only followed when that is asked for. -/
def Graph.followIf (asked : Bool) (i : ℕ) (r : RepositoryEntry) (document : Option Bytes)
    (g : Graph) : Bool × Graph :=
  if asked then g.follow fullPath i r document else (true, g)

/-- The path of the index of a root: `cache_path` or `index_source`. -/
def indexPath (url : Bytes) : Option Bytes :=
  if isWebRepository url then
    files.dataRoot.map fun root => (IndexCache.cachePath root url).take (pathSize - 1)
  else indexSource url

/-! ### The records of the catalogs -/

/-- The variables of `query_available_records`. -/
structure Catalogs where
  graph : Graph
  stale : List ℕ
  records : List PackageEntry
  limited : Bool

def Catalogs.issue (c : Catalogs) : Catalogs := { c with graph := c.graph.issue }

/-- The loop over the packages of an index. -/
def Catalogs.readFrom (i : ℕ) (r : RepositoryEntry) : ℕ → Bytes → Catalogs → Catalogs
  | 0, _, c => c
  | fuel + 1, p, c =>
    let p := jsonSpace p
    if cur p = ch ']' then c
    else if c.records.length = maxPackages then { c with limited := true }
    else match queryRecord i r p with
      | some (e, p) =>
        let c := { c with records := c.records ++ [e] }
        let p := jsonSpace p
        if cur p = ch ',' then Catalogs.readFrom i r fuel p.tail c
        else if cur p = ch ']' then Catalogs.readFrom i r fuel p c
        else c.issue
      | none =>
        match valueEnd p with
        | (_, false) => c.issue
        | (p, true) =>
          let p := jsonSpace p
          if cur p = ch ',' then Catalogs.readFrom i r fuel p.tail c.issue
          else if cur p = ch ']' then Catalogs.readFrom i r fuel p c.issue
          else c.issue.issue

/-- A cached index that is stale is an issue. -/
def Catalogs.age (i : ℕ) (stale : Bool) (c : Catalogs) : Catalogs :=
  if stale then { c.issue with stale := c.stale ++ [i] } else c

/-- A document whose links cannot be read is one, too. -/
def Catalogs.links (i : ℕ) (r : RepositoryEntry) (document : Option Bytes) (c : Catalogs) :
    Catalogs :=
  match c.graph.follow fullPath i r document with
  | (true, graph) => { c with graph := graph }
  | (false, graph) => { c with graph := graph.issue }

/-- The turn of repository `i`. -/
def Catalogs.turn (i : ℕ) (r : RepositoryEntry) (c : Catalogs) : Catalogs :=
  match indexPath files r.url with
  | none => c.issue
  | some path =>
    match files.catalog path with
    | none => c.issue
    | some text =>
      if !queryCatalogDocument text then c.issue
      else match packagesArray text with
        | none => c.issue
        | some p =>
          ((c.age i (isWebRepository r.url && !files.fresh path)).links fullPath i r
            (files.document path)).readFrom i r p.length p

/-- `available_record_order`. -/
def availableRecordOrder (a b : PackageEntry) : Ordering :=
  (stricmp a.name b.name).then <| (stricmp a.arch b.arch).then <|
    ((semverCompare b.version a.version).getD .eq).then <| (compare a.version b.version).then <|
    (compare b.priority a.priority).then <| (compare a.order b.order).then (compare a.url b.url)

/-- The selectors of a query. No ordinal is 0. -/
structure QuerySelectors where
  name : Option Bytes
  arch : Option Bytes
  version : Option Bytes
  ordinal : ℕ

/-- The comparisons with the selectors that are given. -/
def QuerySelectors.select (s : QuerySelectors) (name arch version : Bytes) : Bool :=
  (s.name.all fun n => fold name = fold n) && (s.arch.all fun a => fold arch = fold a) &&
    s.version.all fun v => version = v

/-! ### Documents -/

/-- `wpm_json_string`. -/
def jsonString (text : Option Bytes) : Bytes := (encodeString text).getD (str "null")

/-- `!wpm_json_string`: what it adds to the issues. -/
def jsonIssue (text : Option Bytes) : ℕ := if (encodeString text).isNone then 1 else 0

/-- A text without anything to escape, between quotes. -/
def quotedText (text : Bytes) : Bytes := ch '"' :: text ++ [ch '"']

def jsonBool (b : Bool) : Bytes := if b then str "true" else str "false"

def jsonNat (n : ℕ) : Bytes := printInt n

/-- `query_json_identity`. -/
def jsonIdentity (name arch version : Option Bytes) : List (Bytes × Bytes) :=
  [(str "name", jsonString name), (str "arch", jsonString arch), (str "version", jsonString version)]

def identityIssues (name arch version : Option Bytes) : ℕ :=
  jsonIssue name + jsonIssue arch + jsonIssue version

/-- The result of one of the two queries: its text, the number of matches, and whether it is
complete. -/
structure QueryPart where
  text : Bytes
  matched : ℕ
  complete : Bool

/-- The record of a catalog as it is printed. -/
def catalogRow (c : Catalogs) (e : PackageEntry) : Bytes :=
  objectText (jsonIdentity (some e.name) (some e.arch) (some e.version) ++
    [(str "repository", jsonNat (e.order + 1)), (str "priority", printInt e.priority),
      (str "policy", quotedText <|
        if !isPrerelease e.version then str "stable"
        else if prereleaseEffective files.policy e.name then str "prerelease_allowed"
        else str "prerelease_excluded"),
      (str "stale", jsonBool (e.order ∈ c.stale)),
      (str "parent",
        if c.graph.parents.getD e.order 0 = 0 then str "null"
        else jsonNat (c.graph.parents.getD e.order 0))])

/-- What `query_available_records` prints, with the events that come before the records. -/
def catalogText (warnings : Bytes) (rows : List Bytes)
    (configured inspected issues encodingIssues : ℕ) (limited loaded complete : Bool) : Bytes :=
  objectText [
    (str "records", ch '[' :: (warnings ++ commas rows) ++ [ch ']']),
    (str "summary", objectText [
      (str "matches", jsonNat rows.length), (str "configured_roots", jsonNat configured),
      (str "inspected_roots", jsonNat inspected), (str "issues", jsonNat issues),
      (str "limited", jsonBool limited), (str "serialization_issues", jsonNat encodingIssues)]),
    (str "readable", jsonBool loaded), (str "complete", jsonBool complete)]

/-- `query_available_records`, with `json` set: none when the loop over the roots has not ended. -/
def queryAvailable (s : QuerySelectors) : Option QueryPart :=
  match if maxRepositories < s.ordinal then none else loadCounted fullPath files with
  | none => some ⟨catalogText [] [] 0 0 0 0 false false false, 0, false⟩
  | some loaded =>
    (walk (fun c => c.graph.repositories) (Catalogs.turn fullPath files) maxRepositories 0
      ⟨⟨loaded.repositories, loaded.repositories.map fun _ => 0, loaded.invalid⟩, [], [],
        false⟩).map fun c =>
      let c := if c.graph.repositories.length < s.ordinal then c.issue else c
      let records := (c.records.mergeSort fun a b => availableRecordOrder a b ≠ .gt).filter
        fun e => (s.ordinal = 0 || e.order + 1 = s.ordinal) && s.select e.name e.arch e.version
      let encodingIssues := (records.map fun e =>
        identityIssues (some e.name) (some e.arch) (some e.version)).sum
      let complete := c.graph.issues = 0 && !c.limited && encodingIssues = 0
      ⟨catalogText (loaded.printed files.coloured) (records.map (catalogRow files c))
        loaded.repositories.length c.graph.repositories.length c.graph.issues encodingIssues
        c.limited true complete, records.length, complete⟩

/-! ### The retained records -/

/-- The variables of `query_installed_records`. -/
structure RetainedScan where
  records : List (InstalledEntry × Bytes)
  issues : ℕ
  limited : Bool

/-- The loop over the archives, with the number of those scanned. -/
def RetainedScan.readFrom (store : Bytes) : ℕ → List FoundArchive → RetainedScan → RetainedScan
  | _, [], c => c
  | scanned, found :: rest, c =>
    if scanned = maxInstalled then { c with limited := true }
    else
      let issue := { c with issues := c.issues + 1 }
      RetainedScan.readFrom store (scanned + 1) rest <|
        if !found.ordinary || (joinPath store found.file).isNone || !found.opens then issue
        else match found.info with
          | none => issue
          | some info =>
            if info.name ≠ [] ∧ (semverParse info.version).isSome ∧ knownArch info.arch then
              { c with records := c.records ++ [(⟨info.name, info.version, info.arch⟩, found.file)] }
            else issue

/-- `installed_record_order`. -/
def installedRecordOrder (a b : InstalledEntry × Bytes) : Ordering :=
  (stricmp a.1.name b.1.name).then <| (stricmp a.1.arch b.1.arch).then <|
    ((semverCompare b.1.version a.1.version).getD .eq).then <|
    (compare a.1.version b.1.version).then (stricmp a.2 b.2)

def retainedRow (record : InstalledEntry × Bytes) : Bytes :=
  objectText (jsonIdentity (some record.1.name) (some record.1.arch) (some record.1.version) ++
    [(str "archive", jsonString (some record.2))])

def retainedText (rows : List Bytes) (issues encodingIssues : ℕ)
    (limited readable complete : Bool) : Bytes :=
  objectText [
    (str "records", arrayText rows),
    (str "summary", objectText [
      (str "matches", jsonNat rows.length), (str "issues", jsonNat issues),
      (str "limited", jsonBool limited), (str "serialization_issues", jsonNat encodingIssues)]),
    (str "readable", jsonBool readable), (str "complete", jsonBool complete)]

/-- The end of `query_installed_records`: the report of what the search has come to. -/
def reportRetained (s : QuerySelectors) (c : RetainedScan) : QueryPart :=
  let records := (c.records.mergeSort fun a b => installedRecordOrder a b ≠ .gt).filter
    fun record => s.select record.1.name record.1.arch record.1.version
  let encodingIssues := (records.map fun record =>
    identityIssues (some record.1.name) (some record.1.arch) (some record.1.version) +
      jsonIssue (some record.2)).sum
  let complete := c.issues = 0 && !c.limited && encodingIssues = 0
  ⟨retainedText (records.map retainedRow) c.issues encodingIssues c.limited true complete,
    records.length, complete⟩

/-- `query_installed_records`, with `json` set. -/
def queryInstalled (s : QuerySelectors) : QueryPart :=
  let unreadable : QueryPart := ⟨retainedText [] 0 0 false false false, 0, false⟩
  match (files.dataRoot.filter (· ≠ [])).bind fun root => joinPath root (str "packages") with
  | none => unreadable
  | some store =>
    match files.store with
    | .absent => reportRetained s ⟨[], 0, false⟩
    | .hidden | .unusual => unreadable
    | .empty =>
      if (joinPath store (str "*.zip")).isNone then unreadable else reportRetained s ⟨[], 0, false⟩
    | .refused => unreadable
    | .archives found whole =>
      if (joinPath store (str "*.zip")).isNone then unreadable
      else
        let c := RetainedScan.readFrom store 0 found ⟨[], 0, false⟩
        reportRetained s <|
          if !c.limited && !whole then { c with issues := c.issues + 1 } else c

/-! ### `wpm list` and `wpm show` -/

/-- The command: `wpm list`, with `--available` or without, or `wpm show`. -/
inductive QueryCommand
  | list (available : Bool)
  | showPackage
  deriving DecidableEq

/-- The retained records are queried. -/
def QueryCommand.retained : QueryCommand → Bool
  | list available => !available
  | showPackage => true

/-- The catalogs are queried. -/
def QueryCommand.catalog : QueryCommand → Bool
  | list available => available
  | showPackage => true

def QueryCommand.isShow : QueryCommand → Bool
  | list _ => false
  | showPackage => true

/-- The document of `wpm_repo_query_json`, with the results of the queries that are made. -/
def queryDocument (command : QueryCommand) (s : QuerySelectors)
    (retained catalog : Option QueryPart) : Bytes :=
  let encodingIssues := identityIssues s.name s.arch s.version
  let complete := retained.all QueryPart.complete && catalog.all QueryPart.complete &&
    encodingIssues = 0
  let success := complete && (!command.isShow || retained.any (·.matched ≠ 0) ||
    catalog.any (·.matched ≠ 0))
  objectText [
    (str "schema", quotedText (str "wpm.package-query.v1")),
    (str "command", quotedText (if command.isShow then str "show" else str "list")),
    (str "mode", quotedText <|
      if command.isShow then str "both" else if command.catalog then str "catalog"
      else str "retained"),
    (str "selectors", objectText (jsonIdentity s.name s.arch s.version ++
      [(str "repository", if s.ordinal = 0 then str "null" else jsonNat s.ordinal)])),
    (str "retained", (retained.map QueryPart.text).getD (str "null")),
    (str "catalog", (catalog.map QueryPart.text).getD (str "null")),
    (str "serialization_issues", jsonNat encodingIssues),
    (str "complete", jsonBool complete),
    (str "status", quotedText <|
      if !complete then str "partial" else if success then str "complete" else str "not_found"),
    (str "exit_code", jsonNat (if success then 0 else 1)),
    (str "metadata_only", jsonBool true),
    (str "archive_integrity_verified", jsonBool false),
    (str "signature_trust_verified", jsonBool false),
    (str "deployed_state_known", jsonBool false)]

/-- `wpm_repo_query_json`: what it prints. -/
def repoQueryJson (command : QueryCommand) (s : QuerySelectors) : Option Bytes :=
  let retained := if command.retained then some (queryInstalled files s) else none
  if command.catalog then
    (queryAvailable fullPath files s).map fun catalog =>
      queryDocument command s retained (some catalog) ++ [10]
  else some (queryDocument command s retained none ++ [10])

/-! ### `wpm repo diagnose` -/

/-- The variables of `diagnose_repositories`, with the rows that are printed. -/
structure Health where
  graph : Graph
  rows : List Bytes
  usable : ℕ
  unavailable : ℕ
  invalid : ℕ
  stale : ℕ

/-- The row of root `i`, of those configured. -/
def Health.row (configured i : ℕ) (r : RepositoryEntry) (status : Bytes) (h : Health) : Health :=
  { h with rows := h.rows ++ [objectText [
      (str "ordinal", jsonNat (i + 1)), (str "configured", jsonBool (i < configured)),
      (str "parent", jsonNat (h.graph.parents.getD i 0)),
      (str "transport", quotedText <|
        if !isWebRepository r.url then str "filesystem"
        else if isHttpRepository r.url then str "http" else str "https"),
      (str "insecure", jsonBool (isHttpRepository r.url)), (str "status", quotedText status)]] }

/-- The turn of root `i`. -/
def Health.turn (followLinks : Bool) (configured i : ℕ) (r : RepositoryEntry) (h : Health) :
    Health :=
  match (indexPath files r.url).filter files.present with
  | none => { h with unavailable := h.unavailable + 1 }.row configured i r (str "unavailable")
  | some path =>
    if !((files.document path).any indexFileSupported) then
      { h with invalid := h.invalid + 1 }.row configured i r (str "invalid")
    else
      match h.graph.followIf fullPath followLinks i r (files.document path) with
      | (false, graph) =>
        { h with graph := graph, invalid := h.invalid + 1 }.row configured i r (str "invalid")
      | (true, graph) =>
        if isWebRepository r.url && !files.fresh path then
          { h with graph := graph, usable := h.usable + 1, stale := h.stale + 1 }.row configured i r
            (str "stale")
        else { h with graph := graph, usable := h.usable + 1 }.row configured i r (str "valid")

def healthSummary (configured inspected usable unavailable invalid stale configuration links : ℕ) :
    Bytes :=
  objectText [
    (str "configured_roots", jsonNat configured), (str "inspected_roots", jsonNat inspected),
    (str "usable_indexes", jsonNat usable), (str "unavailable", jsonNat unavailable),
    (str "invalid", jsonNat invalid), (str "stale", jsonNat stale),
    (str "invalid_configuration", jsonNat configuration), (str "link_issues", jsonNat links)]

/-- `diagnose_repositories`, with `json` set: what it prints. The loading is quiet. -/
def repoDiagnoseJson (followLinks : Bool) : Option Bytes :=
  match loadCounted fullPath files with
  | none => some <| objectText [
      (str "version", jsonNat 1), (str "follow_links", jsonBool followLinks),
      (str "healthy", jsonBool false), (str "error", quotedText (str "configuration_unreadable")),
      (str "roots", arrayText []), (str "summary", healthSummary 0 0 0 0 0 0 1 0)] ++ [10]
  | some loaded =>
    (walk (fun h => h.graph.repositories)
      (Health.turn fullPath files followLinks loaded.repositories.length) maxRepositories 0
      ⟨⟨loaded.repositories, loaded.repositories.map fun _ => 0, 0⟩, [], 0, 0, 0, 0⟩).map fun h =>
      objectText [
        (str "version", jsonNat 1), (str "follow_links", jsonBool followLinks),
        (str "roots", arrayText h.rows),
        (str "summary", healthSummary loaded.repositories.length h.graph.repositories.length h.usable
          h.unavailable h.invalid h.stale loaded.invalid h.graph.issues),
        (str "healthy", jsonBool (h.unavailable = 0 && h.invalid = 0 && h.stale = 0 &&
          loaded.invalid = 0 && h.graph.issues = 0))] ++ [10]

/-! ### The commands -/

/-- A command that is accepted with `--json`. -/
inductive JsonQuery
  | package (command : QueryCommand) (selectors : QuerySelectors)
  | diagnose (followLinks : Bool)

/-- What the command prints. -/
def JsonQuery.output : JsonQuery → Option Bytes
  | package command selectors => repoQueryJson fullPath files command selectors
  | diagnose followLinks => repoDiagnoseJson fullPath files followLinks

/-- The configuration is loaded, and not quietly: an ordinal beyond the last possible root is refused
before. -/
def JsonQuery.loads : JsonQuery → Bool
  | package command selectors => command.catalog && selectors.ordinal ≤ maxRepositories
  | diagnose _ => false

end Wpm.Repository
