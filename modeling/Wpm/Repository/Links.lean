import Wpm.Https.Redirect
import Wpm.JsonInput
import Wpm.Lib.Text
import Wpm.Repository.Directory

/-!
The repositories of the configuration, and those that their indexes link to.

Whatever the indexes hold, what is derived from a repository stays where the user has put it: an
address of `https` never leads to plain `http`, plain `http` stays with the servers that the
configuration opts in to, and a directory leads to what is beneath it.
-/

namespace Wpm.Repository

open Wpm.Lib.CString Wpm.Lib.Text Wpm.Lib.FilePath Wpm.JsonInput
open Wpm.Archive (pathSize)

/-- `MAX_REPOSITORIES`. -/
def maxRepositories : ℕ := 32

/-- `WPM_DEFAULT_REPOSITORY`. -/
def defaultRepository : Bytes := str "https://github.com/Thewafflication/wpm/releases/latest/download"

/-- A `repository`. -/
structure RepositoryEntry where
  url : Bytes
  priority : ℤ
  order : ℕ
  allowInsecureHttp : Bool
  deriving DecidableEq

/-! ### The configuration -/

/-- The option on a line of the configuration: the locator before it, and whether it is there. -/
def parseOption (url : Bytes) : Option (Bytes × Bool) :=
  match cutAt 9 url with
  | none => some (url, false)
  | some (url, option) =>
    if option = str "allow-insecure-http=true" then some (url, true) else none

/-- `parse_entry`: the priority, the locator, and the opt-in to plain `http`. -/
def parseEntry (line : Bytes) : Option (ℤ × Bytes × Bool) := do
  let (head, rest) ← cutAt 9 line
  let (priority, stop) := strtol head
  if stop ≠ [] then none
  else
    let (url, allowHttp) ← parseOption (spanNot [13, 10] rest)
    if url ≠ [] ∧ (isHttpRepository url = false ∨ allowHttp) then some (priority, url, allowHttp)
    else none

/-- The lines of the configuration, if the file can be opened. -/
def configLines (config : Option Bytes) : List Bytes :=
  match config with
  | none => []
  | some text => (fgetsAll (pathSize + 32) (textMode text)).map cstr

variable (fullPath : Bytes → Option Bytes)

/-- What `load_repositories` does with a line. -/
def loadLine (result : List RepositoryEntry) (line : Bytes) : List RepositoryEntry :=
  match parseEntry line with
  | none => result
  | some (priority, url, allowHttp) =>
    match repositoryNormalize fullPath url with
    | none => result
    | some normalized =>
      if isWebRepository url = false ∧ fold url ≠ fold normalized then result
      else if maxRepositories ≤ result.length then result
      else result ++ [⟨normalized, priority, result.length, allowHttp⟩]

/-- `load_repositories`. -/
def loadRepositories (config : Option Bytes) : List RepositoryEntry :=
  let result := (configLines config).foldl (loadLine fullPath) []
  if (result.any fun r => fold r.url = fold defaultRepository) ∨ maxRepositories ≤ result.length
  then result
  else result ++ [⟨defaultRepository, 0, result.length, false⟩]

/-! ### The links of an index -/

/-- `append_repository_link_mode`. -/
def appendRepositoryLink (repositories : List RepositoryEntry) (parent : RepositoryEntry) (link : Bytes) :
    Option (List RepositoryEntry) := do
  let source ← packageSource parent.url link
  let normalized ← repositoryNormalize fullPath source
  if repositories.any fun r => fold r.url = fold normalized then some repositories
  else if maxRepositories ≤ repositories.length then none
  else some (repositories ++ [{ parent with url := normalized, order := repositories.length }])

/-- The loop of `parse_index` and `diagnose_links` over the links. -/
def readLinks : ℕ → Bytes → List Bytes
  | 0, _ => []
  | fuel + 1, p =>
    let p := jsonSpace p
    if cur p = 0 ∨ cur p = ch ']' then []
    else match readString true pathSize p with
      | none => []
      | some (link, p) =>
        let p := jsonSpace p
        link :: if cur p = ch ',' then readLinks fuel p.tail else []

/-- The links in the text of an index. -/
def repositoryLinks (text : Bytes) : List Bytes :=
  match jsonField text (str "repositories") with
  | some p => if cur p = ch '[' then readLinks p.length p.tail else []
  | none => []

/-- What `parse_index` does with the links of the index of `parent`. -/
def followLinks (parent : RepositoryEntry) (repositories : List RepositoryEntry) (text : Bytes) :
    List RepositoryEntry :=
  (repositoryLinks text).foldl
    (fun repositories link => (appendRepositoryLink fullPath repositories parent link).getD
      repositories) repositories

/-- **The lists of repositories that a command comes to**, as it reads the indexes of those in the
list: each of them may link to anything. -/
inductive Explored (config : Option Bytes) : List RepositoryEntry → Prop
  | load : Explored config (loadRepositories fullPath config)
  | link {repositories repositories' : List RepositoryEntry} {parent : RepositoryEntry} {link : Bytes} :
      Explored config repositories → parent ∈ repositories →
      appendRepositoryLink fullPath repositories parent link = some repositories' →
      Explored config repositories'

/-- **The repositories that a root leads to**, over any number of links. -/
inductive Derived (config : Option Bytes) (root : RepositoryEntry) : RepositoryEntry → Prop
  | root : Derived config root root
  | link {repositories : List RepositoryEntry} {parent child : RepositoryEntry} {link : Bytes} :
      Derived config root parent → Explored fullPath config repositories →
      parent ∈ repositories →
      appendRepositoryLink fullPath repositories parent link = some (repositories ++ [child]) →
      Derived config root child

/-! ### Retrieval -/

/-- The answer of a server: its status, and the location that a redirection names. -/
structure Reply where
  status : ℕ
  location : Option Bytes

/-- The loop of `http_download`, with `n` requests to go: the addresses that it requests, of a
server with the answers given. -/
def httpRequests (url : Bytes) : ℕ → Bytes → List Reply → List Bytes
  | 0, _, _ => []
  | _ + 1, current, [] => [current]
  | n + 1, current, reply :: replies =>
    current ::
      if reply.status < 300 ∨ 400 ≤ reply.status then []
      else match reply.location.bind (httpRedirectUrl url) with
        | some next => httpRequests url n next replies
        | none => []

/-- `http_download`, with up to five redirections. -/
def httpDownload (url : Bytes) (replies : List Reply) : List Bytes :=
  if isHttpRepository url ∧ url.length < pathSize then httpRequests url 6 url replies else []

/-- The part of `download_on_progress` that lets a redirection pass or ends the transfer, for a
source of `https`. -/
def allowsRedirect (redirect : Bytes) : Bool :=
  decide (redirect.length < pathSize) && isWebRepository redirect && !isHttpRepository redirect

/-- `urlmon_download`: the addresses that are requested, when the servers redirect to these ones. -/
def urlmonDownload (url : Bytes) (redirects : List Bytes) : List Bytes :=
  if isHttpsRepository url then url :: redirects.takeWhile allowsRedirect else []

/-- `wpm_https_backend`. -/
inductive HttpsBackend
  | bundled
  | urlmon
  | invalid

/-- What servers answer: to `http_download`, to `wpm_https_download` and to `URLDownloadToFileA`. -/
structure Servers where
  replies : List Reply
  headers : ℕ → Option Https.Headers
  redirects : List Bytes

/-- A request: in plain `http`, through TLS, or by `URLDownloadToFileA`. -/
inductive Transfer
  | plain (address : Bytes)
  | tls (request : Https.Request)
  | urlmon (address : Bytes)

/-- `retrieve`: the requests that are made. Other sources are copied. -/
def retrieve (backend : HttpsBackend) (source : Bytes) (allowInsecureHttp : Bool)
    (servers : Servers) : List Transfer :=
  if isHttpsRepository source then
    match backend with
    | .bundled => (Https.requests source servers.headers).map .tls
    | .urlmon => (urlmonDownload source servers.redirects).map .urlmon
    | .invalid => []
  else if isHttpRepository source then
    if allowInsecureHttp then (httpDownload source servers.replies).map .plain else []
  else []

/-- The sources that are retrieved for a repository: its index and its packages. -/
inductive Source (r : RepositoryEntry) : Bytes → Prop
  | index {source : Bytes} : indexSource r.url = some source → Source r source
  | package {item source : Bytes} : packageSource r.url item = some source → Source r source

/-- The locations that are derived from a repository: its root, its sources, and where the servers
redirect to. -/
inductive Location (r : RepositoryEntry) : Bytes → Prop
  | root : Location r r.url
  | source {source : Bytes} : Source r source → Location r source
  | redirect {initial location result : Bytes} : Location r initial →
      isWebRepository initial = true → httpRedirectUrl initial location = some result →
      Location r result

/-! ### Containment -/

/-- The authority of an address of plain `http`, as it is read elsewhere: it ends at the first
slash of either kind, question mark or number sign. -/
def httpAuthority (location : Bytes) : Bytes := spanNot (str "/\\?#") (location.drop 7)

/-- The two addresses are of plain `http` and have the same authority, which names no user. -/
structure SameAuthority (a b : Bytes) : Prop where
  left : isHttpRepository a = true
  right : isHttpRepository b = true
  authority : fold (httpAuthority a) = fold (httpAuthority b)
  ne_nil : httpAuthority a ≠ []
  noUser : ch '@' ∉ httpAuthority a

/-- The root is one of plain `http`, which a line of the configuration opts in to. -/
structure OptedIn (config : Option Bytes) (root : RepositoryEntry) : Prop where
  loaded : root ∈ loadRepositories fullPath config
  http : isHttpRepository root.url = true
  allow : root.allowInsecureHttp = true
  configured : ∃ line ∈ configLines config, ∃ url,
    parseEntry line = some (root.priority, url, true) ∧
      repositoryNormalize fullPath url = some root.url

/-- The request is of plain `http` at a location of a repository with the opt-in, or of `https`. -/
def Transfer.Permitted (r : RepositoryEntry) : Transfer → Prop
  | .plain address => r.allowInsecureHttp = true ∧ Location r address
  | .tls request => request.Intact
  | .urlmon address => isHttpsRepository address = true

/-- **What is derived from the repository stays where the root is.** -/
structure Contained (config : Option Bytes) (root r : RepositoryEntry) : Prop where
  /-- An address of `https` leads to no plain `http`. -/
  https : isHttpsRepository root.url = true →
    ∀ location, Location r location → isHttpRepository location = false
  /-- Plain `http` stays with a server that the configuration opts in to. -/
  http : ∀ location, Location r location → isHttpRepository location = true →
    ∃ configured, OptedIn fullPath config configured ∧ SameAuthority location configured.url
  /-- Plain `http` is requested for a repository that carries the opt-in, and of such a server; and
  every other request is one of `https`, wherever the servers redirect to. -/
  retrieval : ∀ source, Source r source → ∀ backend servers,
    ∀ transfer ∈ retrieve backend source r.allowInsecureHttp servers, transfer.Permitted r
  /-- A directory leads to what is beneath it. -/
  directory : isWebRepository root.url = false →
    (r = root ∨ Beneath root.url r.url) ∧ ∀ source, Source r source → Beneath root.url source

end Wpm.Repository
