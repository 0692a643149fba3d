import Wpm.JsonDocument
import Wpm.Lib.Worklist
import Wpm.Repository.Links
import Wpm.Repository.Select

/-!
The catalogs: the entries that the indexes of the repositories list, and the loops that read them.

The loops go over the table of the repositories while the links of the indexes add to it. The table
stays well formed, the loops end, and an entry carries the index of the repository whose document
lists it.
-/

namespace Wpm.Repository

open Wpm.Lib.CString Wpm.Lib.Worklist Wpm.JsonInput
open Wpm.Archive (pathSize)

/-- `MAX_PACKAGES`. -/
def maxPackages : ℕ := 96

/-! ### The document -/

/-- The size of an index: no more than four megabytes. -/
def indexSizeValid (text : Bytes) : Bool := 2 ≤ text.length ∧ text.length ≤ 4 * 1024 * 1024

/-- The checks that every reader of an index begins with. -/
def documentSupported (text : Bytes) : Bool :=
  indexSizeValid text && decide (0 ∉ text) && documentValid text && jsonVersionOne text

/-- The elements of the field `packages`, if it is an array. -/
def packagesArray (text : Bytes) : Option Bytes :=
  match jsonField text (str "packages") with
  | some p => if cur p = ch '[' then some p.tail else none
  | none => none

/-- `index_file_supported`. -/
def indexFileSupported (text : Bytes) : Bool :=
  documentSupported text && (packagesArray text).isSome

/-! ### The entries of an index -/

/-- What `wpm_json_read_string` puts into its buffer of `size` bytes, with `n` bytes put out so far:
all of the string and a terminator, or what comes before the place where the read fails. -/
def writtenUnits (size : ℕ) : ℕ → ℕ → Bytes → Bytes
  | 0, _, _ => []
  | fuel + 1, n, p =>
    if cur p = 0 then []
    else if cur p = ch '"' then [0]
    else match readUnit true (cur p) p.tail with
      | none => []
      | some (bytes, rest) =>
        if size ≤ n + bytes.length then []
        else bytes ++ writtenUnits size fuel (n + bytes.length) rest

/-- The buffer of `size` bytes and the pointer after a `wpm_json_read_string` whose result is not
looked at. -/
def overwriteString (size : ℕ) (buffer p : Bytes) : Bytes × Bytes :=
  let start := jsonSpace p
  let written := if cur start ≠ ch '"' then [] else writtenUnits size start.length 0 start.tail
  (written ++ buffer.drop written.length, ((readString true size p).map Prod.snd).getD p)

/-- The buffers of `parse_index` for the members of a package. -/
structure Members where
  name : Bytes
  version : Bytes
  arch : Bytes
  url : Bytes

/-- The buffers at the start of a package. -/
def Members.start : Members where
  name := List.replicate 128 0
  version := List.replicate 64 0
  arch := List.replicate 16 0
  url := List.replicate pathSize 0

/-- What `parse_index` does with the value of a member. -/
def Members.read (m : Members) (key p : Bytes) : Members × Bytes :=
  if key = str "name" then
    ({ m with name := (overwriteString 128 m.name p).1 }, (overwriteString 128 m.name p).2)
  else if key = str "version" then
    ({ m with version := (overwriteString 64 m.version p).1 }, (overwriteString 64 m.version p).2)
  else if key = str "arch" then
    ({ m with arch := (overwriteString 16 m.arch p).1 }, (overwriteString 16 m.arch p).2)
  else if key = str "url" then
    ({ m with url := (overwriteString pathSize m.url p).1 }, (overwriteString pathSize m.url p).2)
  else (m, (valueEnd p).1)

/-- The pointer over a comma, if one is there. -/
def skipComma (p : Bytes) : Bytes := if cur p = ch ',' then p.tail else p

/-- The loop of `parse_index` over the members of a package. -/
def readMembers : ℕ → Members → Bytes → Members × Bytes
  | 0, m, p => (m, p)
  | fuel + 1, m, p =>
    if cur p = 0 ∨ cur p = ch '}' then (m, p)
    else match readKey 32 (jsonSpace p) with
      | none => (m, jsonSpace p)
      | some (key, p) =>
        if cur (jsonSpace p) ≠ ch ':' then (m, jsonSpace p)
        else
          let r := m.read key (jsonSpace p).tail
          readMembers fuel r.1 (skipComma (jsonSpace r.2))

/-- The loop of `parse_index` over the packages: the members of each of them. -/
def readPackages : ℕ → Bytes → List Members
  | 0, _ => []
  | fuel + 1, p =>
    let p := jsonSpace p
    if cur p = 0 ∨ cur p = ch ']' then []
    else if cur p ≠ ch '{' then
      if cur (valueEnd p).1 ≠ ch ',' then [] else readPackages fuel (valueEnd p).1.tail
    else
      let r := readMembers p.length .start p.tail
      r.1 :: readPackages fuel (skipComma (jsonSpace (if cur r.2 = ch '}' then r.2.tail else r.2)))

/-- The entry of a package in the index of `r`: none of its members may be empty. -/
def Members.entry (r : RepositoryEntry) (m : Members) : Option PackageEntry :=
  if cstr m.name ≠ [] ∧ cstr m.version ≠ [] ∧ cstr m.arch ≠ [] ∧ cstr m.url ≠ [] then
    some ⟨cstr m.name, cstr m.version, cstr m.arch, cstr m.url, r.priority, r.order⟩
  else none

/-- The entries that an index of `r` lists, for `parse_index`. -/
def indexEntries (r : RepositoryEntry) (text : Bytes) : List PackageEntry :=
  match packagesArray text with
  | none => []
  | some p => (readPackages p.length p).filterMap (Members.entry r)

/-- The entries of an index are kept while there is room for them. -/
def addEntries (entries listed : List PackageEntry) : List PackageEntry :=
  entries ++ listed.take (maxPackages - entries.length)

variable (fullPath : Bytes → Option Bytes)

/-- `parse_index`, of a file with the text given: the entries and the repositories after it. -/
def parseIndex (r : RepositoryEntry) (text : Bytes) (entries : List PackageEntry)
    (repositories : List RepositoryEntry) : Option (List PackageEntry × List RepositoryEntry) :=
  if indexFileSupported text then
    some (addEntries entries (indexEntries r text), followLinks fullPath r repositories text)
  else none

/-! ### The entries of a published index -/

/-- The fields of `author_entry` that have been read. -/
structure AuthorFields where
  name : Option Bytes
  version : Option Bytes
  arch : Option Bytes
  url : Option Bytes

/-- The value of a field of `author_entry`, which is there once and is not empty. -/
def readOnce (size : ℕ) (old : Option Bytes) (p : Bytes) : Option (Bytes × Bytes) :=
  match old, readString true size p with
  | none, some (value, p) => if value = [] then none else some (value, p)
  | _, _ => none

/-- What `author_entry` does with the value of a member. -/
def AuthorFields.read (f : AuthorFields) (key p : Bytes) : Option (AuthorFields × Bytes) :=
  if key = str "name" then
    (readOnce 128 f.name p).map fun r => ({ f with name := some r.1 }, r.2)
  else if key = str "version" then
    (readOnce 64 f.version p).map fun r => ({ f with version := some r.1 }, r.2)
  else if key = str "arch" then
    (readOnce 16 f.arch p).map fun r => ({ f with arch := some r.1 }, r.2)
  else if key = str "url" then
    (readOnce pathSize f.url p).map fun r => ({ f with url := some r.1 }, r.2)
  else if (valueEnd p).2 then some (f, (valueEnd p).1)
  else none

/-- The loop of `author_entry`, up to and over the closing brace. -/
def authorMembers : ℕ → AuthorFields → Bytes → Option (AuthorFields × Bytes)
  | 0, _, _ => none
  | fuel + 1, f, p =>
    let p := jsonSpace p
    if cur p = ch '}' then some (f, p.tail)
    else do
      let (key, p) ← readKey 32 p
      let p := jsonSpace p
      if cur p ≠ ch ':' then none
      else
        let (f, p) ← f.read key p.tail
        let p := jsonSpace p
        if cur p = ch ',' then authorMembers fuel f p.tail
        else if cur p = ch '}' then authorMembers fuel f p
        else none

/-- The architectures of a package. -/
def knownArch (arch : Bytes) : Bool :=
  fold arch = str "any" ∨ fold arch = str "x86" ∨ fold arch = str "x64" ∨ fold arch = str "arm64"

/-- `author_entry`. -/
def authorEntry (source : Bytes) : Option (PackageEntry × Bytes) :=
  let p := jsonSpace source
  if cur p ≠ ch '{' then none
  else match authorMembers p.length ⟨none, none, none, none⟩ p.tail with
    | some (⟨some name, some version, some arch, some url⟩, p) =>
      if (semverParse version).isSome ∧ knownArch arch then
        some (⟨name, version, arch, url, 0, 0⟩, p)
      else none
    | _ => none

/-- The loop of `author_catalog_fields`, with whether `version` and `packages` have been there. -/
def authorCatalogFieldsFrom : ℕ → Bool → Bool → Bytes → Bool
  | 0, _, _, _ => false
  | fuel + 1, version, packages, p =>
    let p := jsonSpace p
    if cur p = ch '}' then version && packages
    else match readKey 32 p with
      | none => false
      | some (key, p) =>
        let p := jsonSpace p
        if (key = str "version" ∧ version) ∨ (key = str "packages" ∧ packages) ∨
            cur p ≠ ch ':' ∨ (valueEnd p.tail).2 = false then false
        else
          let p := jsonSpace (valueEnd p.tail).1
          if cur p = ch ',' then
            authorCatalogFieldsFrom fuel (version || key = str "version")
              (packages || key = str "packages") p.tail
          else if cur p = ch '}' then
            authorCatalogFieldsFrom fuel (version || key = str "version")
              (packages || key = str "packages") p
          else false

/-- `author_catalog_fields`: `version` and `packages` are there, once each. -/
def authorCatalogFields (text : Bytes) : Bool :=
  let p := jsonContent text
  if cur p ≠ ch '{' then false else authorCatalogFieldsFrom p.length false false p.tail

/-- `query_catalog_document`, of a file with the text given. -/
def queryCatalogDocument (text : Bytes) : Bool := documentSupported text && authorCatalogFields text

/-- The entry of a record in the index of repository `i`, if `query_available_records` keeps it. -/
def queryRecord (i : ℕ) (r : RepositoryEntry) (p : Bytes) : Option (PackageEntry × Bytes) :=
  match authorEntry p with
  | none => none
  | some (e, p) =>
    if e.name.any (fun c => c = ch '\\' ∨ c = ch '/' ∨ c = ch ':' ∨ c = ch '*') ∨
        (packageSource r.url e.url).isNone then none
    else some ({ e with priority := r.priority, order := i }, p)

/-- The loop of `query_available_records` over the packages of an index. -/
def queryRecordsFrom (i : ℕ) (r : RepositoryEntry) : ℕ → Bytes → List PackageEntry
  | 0, _ => []
  | fuel + 1, p =>
    let p := jsonSpace p
    if cur p = ch ']' then []
    else match queryRecord i r p with
      | some (e, p) =>
        e :: if cur (jsonSpace p) = ch ',' then queryRecordsFrom i r fuel (jsonSpace p).tail
          else if cur (jsonSpace p) = ch ']' then queryRecordsFrom i r fuel (jsonSpace p)
          else []
      | none =>
        if (valueEnd p).2 = false then []
        else
          let p := jsonSpace (valueEnd p).1
          if cur p = ch ',' then queryRecordsFrom i r fuel p.tail
          else if cur p = ch ']' then queryRecordsFrom i r fuel p
          else []

/-- The records that an index of `r` lists, for `query_available_records`. -/
def queryRecords (i : ℕ) (r : RepositoryEntry) (text : Bytes) : List PackageEntry :=
  match packagesArray text with
  | none => []
  | some p => queryRecordsFrom i r p.length p

/-! ### The loops over the repositories -/

/-- The variables of a loop over the repositories, with the files as they are. The documents that
have been read are kept with the repositories that they have been read for. -/
structure Survey (σ : Type*) where
  repositories : List RepositoryEntry
  parents : List ℕ
  entries : List PackageEntry
  usable : Bool
  documents : List (RepositoryEntry × Bytes)
  state : σ

variable {σ : Type*} (read : RepositoryEntry → σ → Option Bytes × σ)

/-- The variables before the first turn. -/
def Survey.start (config : Option Bytes) (state : σ) : Survey σ where
  repositories := loadRepositories fullPath config
  parents := List.replicate (loadRepositories fullPath config).length 0
  entries := []
  usable := false
  documents := []
  state := state

/-- A document is read for a repository, if there is one for it. -/
def Survey.readDocument (r : RepositoryEntry) (v : Survey σ) : Option Bytes × Survey σ :=
  ((read r v.state).1,
    { v with
      documents := v.documents ++ (read r v.state).1.toList.map fun text => (r, text)
      state := (read r v.state).2 })

/-- The turn of `load_entries`. -/
def loadTurn (_ : ℕ) (r : RepositoryEntry) (v : Survey σ) : Survey σ :=
  match v.readDocument read r with
  | (none, v) => v
  | (some text, v) => match parseIndex fullPath r text v.entries v.repositories with
    | none => v
    | some (entries, repositories) =>
      { v with entries := entries, repositories := repositories, usable := true }

/-- `diagnose_links`, of a file with the text given: the roots that it adds have the repository `i`
as their parent. -/
def diagnoseLinks (i : ℕ) (r : RepositoryEntry) (text : Bytes) (v : Survey σ) : Survey σ :=
  if documentSupported text then
    { v with
      repositories := followLinks fullPath r v.repositories text
      parents := v.parents ++ List.replicate
        ((followLinks fullPath r v.repositories text).length - v.repositories.length) (i + 1) }
  else v

/-- The links of an index are read from the file once more. -/
def followTurn (i : ℕ) (r : RepositoryEntry) (v : Survey σ) : Survey σ :=
  match v.readDocument read r with
  | (none, v) => v
  | (some text, v) => diagnoseLinks fullPath i r text v

/-- The turn of `diagnose_repositories`. -/
def diagnoseTurn (follow : Bool) (i : ℕ) (r : RepositoryEntry) (v : Survey σ) : Survey σ :=
  match v.readDocument read r with
  | (none, v) => v
  | (some text, v) =>
    if indexFileSupported text ∧ follow then followTurn fullPath read i r v else v

/-- The turn of `query_available_records`. -/
def queryTurn (i : ℕ) (r : RepositoryEntry) (v : Survey σ) : Survey σ :=
  match v.readDocument read r with
  | (none, v) => v
  | (some text, v) =>
    if queryCatalogDocument text ∧ (packagesArray text).isSome then
      let v := followTurn fullPath read i r v
      { v with entries := addEntries v.entries (queryRecords i r text) }
    else v

variable (turn : ℕ → RepositoryEntry → Survey σ → Survey σ)

/-- A loop over the repositories, as many as there come to be. -/
def survey (config : Option Bytes) (state : σ) : Option (Survey σ) :=
  walk Survey.repositories turn maxRepositories 0 (.start fullPath config state)

/-- `load_entries`, with `read` the file that is parsed for a repository: the cached index after it
has been refreshed, or the index of a directory. -/
def loadEntries (config : Option Bytes) (state : σ) : Option (Survey σ) :=
  survey fullPath (loadTurn fullPath read) config state

/-- `diagnose_repositories`. -/
def diagnoseRepositories (follow : Bool) (config : Option Bytes) (state : σ) : Option (Survey σ) :=
  survey fullPath (diagnoseTurn fullPath read follow) config state

/-- `query_available_records`, up to the order of the records. -/
def queryAvailableRecords (config : Option Bytes) (state : σ) : Option (Survey σ) :=
  survey fullPath (queryTurn fullPath read) config state

/-- The source from which `obtain` retrieves the package of an entry. -/
def obtainSource (repositories : List RepositoryEntry) (selected : PackageEntry) : Option Bytes :=
  match repositories[selected.order]? with
  | none => none
  | some repo =>
    if [selected.name, selected.version, selected.arch].any fun field =>
        field.any fun c => c = ch '\\' ∨ c = ch '/' ∨ c = ch ':' ∨ c = ch '*' then none
    else packageSource repo.url selected.url

end Wpm.Repository
