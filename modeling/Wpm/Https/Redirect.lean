import Wpm.Https.Headers

/-!
The URLs of a download: `https_parse_url`, `https_redirect` and the loop of `wpm_https_download`.

The server answers every request as it likes, so that every URL after the first one is put together
from text of its choice. `Url.Safe` is what parsing leaves of that text.
-/

namespace Wpm.Https

open Wpm.Lib Wpm.Lib.CString

/-- An `https_url`. -/
structure Url where
  host : Bytes
  authority : Bytes
  path : Bytes
  port : ℕ
  deriving DecidableEq

/-- A character of a host name. -/
def isHostChar (c : UInt8) : Bool := isAlnum c || c = ch '-' || c = ch '.'

/-- A character that may stand in a URL. -/
def isUrlChar (c : UInt8) : Bool := 32 < c && c < 127 && c ≠ ch '\\'

/-- The scheme `https://`, in any letter case. -/
def hasHttps (text : Bytes) : Bool := fold (text.take 8) = str "https://"

/-- The host and the port of an authority. -/
def hostAndPort (authority : Bytes) : Option (Bytes × ℕ) :=
  match cutAt (ch ':') authority with
  | none => some (authority, 443)
  | some (host, text) => do
    let port ← httpsNumber text 10
    guard (port ≠ 0 ∧ port ≤ 65535)
    some (host, port)

/-- `https_parse_url`. -/
def httpsParseUrl (text : Bytes) : Option Url := do
  guard (hasHttps text = true ∧ text.length < urlSize ∧ text.all isUrlChar = true)
  let authority := spanNot (str "/?#") (text.drop 8)
  guard (authority.length < 264)
  let (host, port) ← hostAndPort authority
  guard (host.length < 254 ∧ host ≠ [] ∧ host.all isHostChar = true)
  let tail := text.drop (8 + authority.length)
  let shown := spanNot (str "#") tail
  if cur tail = ch '/' then do
    guard (shown.length < urlSize)
    some { host, authority, path := shown, port }
  else do
    guard (shown.length < urlSize - 1)
    some { host, authority, path := ch '/' :: shown, port }

/-- The path that a relative location is put behind: without the query, and up to its last slash
unless the location is a query or a fragment. -/
def basePath (base : Url) (location : Bytes) : Option Bytes := do
  let path := spanNot (str "?") base.path
  if cur location ≠ ch '?' ∧ cur location ≠ ch '#' then do
    let upToSlash := path.rdropWhile (· ≠ ch '/')
    guard (upToSlash ≠ [])
    some upToSlash
  else some path

/-- A location that starts with a scheme. -/
def hasScheme (location : Bytes) : Bool :=
  (spanNot (str ":/?#") location).length < (spanNot (str "/?#") location).length

/-- The text that `https_redirect` puts together. -/
def redirectText (base : Url) (location : Bytes) : Option Bytes :=
  if hasHttps location then some location
  else if (str "//").isPrefixOf location then some (str "https:" ++ location)
  else if cur location = ch '/' then some (str "https://" ++ base.authority ++ location)
  else if hasScheme location then none
  else do
    let path ← basePath base location
    some (str "https://" ++ base.authority ++ path ++ location)

/-- `https_redirect`. -/
def httpsRedirect (base : Url) (location : Bytes) : Option Bytes := do
  guard (location ≠ [])
  let next ← redirectText base location
  guard (next.length < urlSize)
  some next

/-- What every request ends with, behind the authority. -/
def requestEnd : String :=
  "\r\nUser-Agent: WPM\r\nAccept: */*\r\nAccept-Encoding: identity\r\nConnection: close\r\n\r\n"

/-- The request line and the header of a request. -/
def requestText (url : Url) : Bytes :=
  str "GET " ++ url.path ++ str " HTTP/1.1\r\nHost: " ++ url.authority ++ str requestEnd

/-- A request that is sent: the URL it is sent to, as text and in its parts, and its bytes. -/
structure Request where
  current : Bytes
  url : Url
  text : Bytes

def isRedirect (status : ℕ) : Bool := status ∈ [301, 302, 303, 307, 308]

/-- The loop of `wpm_https_download`: the requests it sends. The server answers the requests one by
one; it may also give no answer that can be read. -/
def requestsFrom : ℕ → Bytes → (ℕ → Option Headers) → List Request
  | 0, _, _ => []
  | turns + 1, current, server =>
    match httpsParseUrl current with
    | none => []
    | some url =>
      if (requestText url).length < urlSize + 512 then
        ⟨current, url, requestText url⟩ :: match server 0 with
          | none => []
          | some response =>
            if isRedirect response.status then
              match httpsRedirect url response.location with
              | none => []
              | some next => requestsFrom turns next fun k => server (k + 1)
            else []
      else []

/-- The requests of `wpm_https_download`, which follows ten redirections. -/
def requests (initial : Bytes) (server : ℕ → Option Headers) : List Request :=
  if initial.length < urlSize then requestsFrom 11 initial server else []

/-! ### What parsing leaves -/

/-- **Nothing in a URL can change a request**: its parts are of visible ASCII characters, the
authority is a host and a port without credentials, and each of them fits its buffer. -/
structure Url.Safe (url : Url) : Prop where
  authority : ∀ c ∈ url.authority, isHostChar c = true ∨ isDigit c = true ∨ c = ch ':'
  path : cur url.path = ch '/' ∧ ∀ c ∈ url.path, isUrlChar c = true
  host : url.host ≠ [] ∧ ∀ c ∈ url.host, isHostChar c = true
  fits : url.authority.length < 264 ∧ url.host.length < 254 ∧ url.path.length < urlSize

lemma isDigit_of_httpsDigit {c : UInt8} {d : ℕ} (h : httpsDigit 10 c = some d) :
    isDigit c = true := by
  unfold httpsDigit at h
  split_ifs at h with hc hc hc
  · exact decide_eq_true hc
  · omega
  · omega

lemma isDigit_of_httpsNumber {text : Bytes} {n : ℕ} (h : httpsNumber text 10 = some n) :
    ∀ c ∈ text, isDigit c = true := by
  obtain ⟨⟨-, ds, hds, -⟩, -⟩ := (httpsNumber_eq_some (by decide) (by decide)).1 h
  intro c hc
  have hmem : httpsDigit 10 c ∈ ds.map some := hds ▸ List.mem_map_of_mem hc
  obtain ⟨d, -, hd⟩ := List.mem_map.1 hmem
  exact isDigit_of_httpsDigit hd.symm

/-- The authority is its host, and what a port may be written with. -/
lemma forall_mem_of_hostAndPort {authority host : Bytes} {port : ℕ}
    (h : hostAndPort authority = some (host, port)) :
    ∀ c ∈ authority, c ∈ host ∨ isDigit c = true ∨ c = ch ':' := by
  unfold hostAndPort at h
  split at h
  · obtain ⟨rfl, -⟩ := Prod.mk.injEq _ _ _ _ ▸ Option.some.inj h
    exact fun c hc => .inl hc
  · next host' text hcut =>
    obtain ⟨port', hport, h⟩ := Option.bind_eq_some_iff.1 h
    obtain ⟨_, -, h⟩ := Option.bind_eq_some_iff.1 h
    obtain ⟨rfl, -⟩ := Prod.mk.injEq _ _ _ _ ▸ Option.some.inj h
    obtain ⟨rfl, -⟩ := cutAt_eq_some.1 hcut
    intro c hc
    rcases List.mem_append.1 hc with hc | hc
    · exact .inl hc
    · rcases List.mem_cons.1 hc with rfl | hc
      · exact .inr (.inr rfl)
      · exact .inr (.inl (isDigit_of_httpsNumber hport c hc))

lemma cur_spanNot {stop s : Bytes} (h : cur s ∉ stop) : cur (spanNot stop s) = cur s := by
  cases s with
  | nil => rfl
  | cons c s =>
    have hc : c ∉ stop := h
    rw [spanNot_cons hc]
    rfl

/-- What `https_parse_url` accepts, and the parts it leaves. -/
lemma httpsParseUrl_eq_some {text : Bytes} {url : Url} (h : httpsParseUrl text = some url) :
    hasHttps text = true ∧ text.length < urlSize ∧
      url.authority = spanNot (str "/?#") (text.drop 8) ∧ url.Safe := by
  unfold httpsParseUrl at h
  obtain ⟨_, hguard, h⟩ := Option.bind_eq_some_iff.1 h
  obtain ⟨hhttps, hlen, hall⟩ := (Option.guard_eq_some' _).1 hguard
  obtain ⟨_, hguard, h⟩ := Option.bind_eq_some_iff.1 h
  have hauthority := (Option.guard_eq_some' _).1 hguard
  obtain ⟨⟨host, port⟩, hhost, h⟩ := Option.bind_eq_some_iff.1 h
  obtain ⟨_, hguard, h⟩ := Option.bind_eq_some_iff.1 h
  obtain ⟨hhostlen, hne, hchars⟩ := (Option.guard_eq_some' _).1 hguard
  have hchars : ∀ c ∈ host, isHostChar c = true := List.all_eq_true.1 hchars
  have hall : ∀ c ∈ text, isUrlChar c = true := List.all_eq_true.1 hall
  have hshown : ∀ c ∈ spanNot (str "#") (text.drop (8 + (spanNot (str "/?#") (text.drop 8)).length)),
      isUrlChar c = true := by
    intro c hc
    exact hall c (List.mem_of_mem_drop ((List.takeWhile_sublist _).subset hc))
  have hsafe : ∀ c ∈ spanNot (str "/?#") (text.drop 8),
      isHostChar c = true ∨ isDigit c = true ∨ c = ch ':' := by
    intro c hc
    exact (forall_mem_of_hostAndPort hhost c hc).imp_left (hchars c)
  dsimp only at h
  split_ifs at h with hslash
  · obtain ⟨_, hguard, h⟩ := Option.bind_eq_some_iff.1 h
    have hpath := (Option.guard_eq_some' _).1 hguard
    obtain rfl := Option.some.inj h
    refine ⟨hhttps, hlen, rfl, hsafe, ⟨?_, hshown⟩, ⟨hne, hchars⟩, hauthority, hhostlen, hpath⟩
    rw [cur_spanNot (hslash ▸ by decide), hslash]
  · obtain ⟨_, hguard, h⟩ := Option.bind_eq_some_iff.1 h
    have hpath := (Option.guard_eq_some' _).1 hguard
    obtain rfl := Option.some.inj h
    refine ⟨hhttps, hlen, rfl, hsafe, ⟨rfl, ?_⟩, ⟨hne, hchars⟩, hauthority, hhostlen, ?_⟩
    · intro c hc
      rcases List.mem_cons.1 hc with rfl | hc
      · decide
      · exact hshown c hc
    · rw [List.length_cons]
      omega

namespace Url.Safe

variable {url : Url}

/-- There is nothing in an authority that ends it, and no credentials in it. -/
lemma notMem_authority (h : url.Safe) : ∀ c ∈ str "/?#@", c ∉ url.authority := by
  intro c hc hmem
  have hnot : ∀ c ∈ str "/?#@", ¬(isHostChar c = true ∨ isDigit c = true ∨ c = ch ':') :=
    forall_mem_of_all (by decide)
  exact hnot c hc (h.authority c hmem)

/-- An authority put in front of a path is found again. -/
lemma spanNot_authority (h : url.Safe) {rest : Bytes} (hrest : cur rest = ch '/') :
    spanNot (str "/?#") ((str "https://" ++ url.authority ++ rest).drop 8) = url.authority := by
  have hdrop : (str "https://" ++ url.authority ++ rest).drop 8 = url.authority ++ rest := by
    rw [List.append_assoc]
    rfl
  have hstop : ∀ c ∈ url.authority, decide (c ∉ str "/?#") = true := by
    intro c hc
    refine decide_eq_true fun hmem => h.notMem_authority c ?_ hc
    have hsub : str "/?#" ⊆ str "/?#@" := by decide
    exact hsub hmem
  have hhead : rest.takeWhile (fun c => decide (c ∉ str "/?#")) = [] := by
    cases rest with
    | nil => rfl
    | cons c rest =>
      obtain rfl : c = ch '/' := hrest
      exact List.takeWhile_cons_of_neg (by decide)
  rw [hdrop, spanNot, List.takeWhile_append_of_pos hstop, hhead, List.append_nil]

/-- The bytes of a request are the fixed ones, and fit the buffer. -/
lemma length_requestText (h : url.Safe) : (requestText url).length < urlSize + 512 := by
  have hfits := h.fits
  have hfixed : (str "GET ").length + (str " HTTP/1.1\r\nHost: ").length +
      (str requestEnd).length < 200 := by decide
  simp only [requestText, List.length_append]
  omega

end Url.Safe

/-! ### Redirections -/

lemma cur_of_isPrefix {a b : Bytes} (h : a <+: b) (hne : a ≠ []) : cur a = cur b := by
  obtain ⟨t, rfl⟩ := h
  cases a with
  | nil => exact absurd rfl hne
  | cons c a => rfl

/-- The path a relative location is put behind starts with a slash. -/
lemma cur_of_basePath {url : Url} (h : url.Safe) {location path : Bytes}
    (hpath : basePath url location = some path) : cur path = ch '/' := by
  have hcur : cur (spanNot (str "?") url.path) = ch '/' := by
    rw [cur_spanNot (h.path.1 ▸ by decide), h.path.1]
  unfold basePath at hpath
  dsimp only at hpath
  split_ifs at hpath
  · obtain ⟨_, hguard, hpath⟩ := Option.bind_eq_some_iff.1 hpath
    have hne := (Option.guard_eq_some' _).1 hguard
    obtain rfl := Option.some.inj hpath
    rw [cur_of_isPrefix (List.rdropWhile_prefix _ _) hne, hcur]
  · obtain rfl := Option.some.inj hpath
    exact hcur

/-- **A location without a scheme stays with the authority**, however its path is given. -/
lemma redirectText_authority {url : Url} (h : url.Safe) {location next : Bytes}
    (hhttps : hasHttps location = false) (hslashes : ¬ str "//" <+: location)
    (hnext : redirectText url location = some next) :
    ∃ rest, next = str "https://" ++ url.authority ++ rest ∧ cur rest = ch '/' := by
  rw [redirectText, if_neg (by rw [hhttps]; decide),
    if_neg (mt List.isPrefixOf_iff_prefix.1 hslashes)] at hnext
  split_ifs at hnext with hslash hscheme
  · exact ⟨location, (Option.some.inj hnext).symm, hslash⟩
  · obtain ⟨path, hpath, hnext⟩ := Option.bind_eq_some_iff.1 hnext
    have hcur := cur_of_basePath h hpath
    refine ⟨path ++ location, ?_, ?_⟩
    · rw [← List.append_assoc]
      exact (Option.some.inj hnext).symm
    · rw [← cur_of_isPrefix (List.prefix_append path location) ?_, hcur]
      rintro rfl
      exact absurd hcur (by decide)

lemma httpsRedirect_eq_some {base : Url} {location next : Bytes}
    (h : httpsRedirect base location = some next) :
    redirectText base location = some next ∧ next.length < urlSize := by
  unfold httpsRedirect at h
  obtain ⟨_, -, h⟩ := Option.bind_eq_some_iff.1 h
  obtain ⟨next', htext, h⟩ := Option.bind_eq_some_iff.1 h
  obtain ⟨_, hguard, h⟩ := Option.bind_eq_some_iff.1 h
  obtain rfl := Option.some.inj h
  exact ⟨htext, (Option.guard_eq_some' _).1 hguard⟩

/-! ### The requests of a download -/

/-- A request that nothing was injected into. -/
structure Request.Intact (request : Request) : Prop where
  parsed : httpsParseUrl request.current = some request.url
  text : request.text = requestText request.url
  https : hasHttps request.current = true
  safe : request.url.Safe
  credentials : ch '@' ∉ request.url.authority
  fits : request.current.length < urlSize ∧ request.text.length < urlSize + 512

/-- A request that follows another one: its URL is the one that the answer redirects to, with the
same authority unless the location gives one. -/
def Follows (a : Request) (answer : Option Headers) (b : Request) : Prop :=
  ∃ response, answer = some response ∧ isRedirect response.status = true ∧
    httpsRedirect a.url response.location = some b.current ∧
    (hasHttps response.location = false → ¬ str "//" <+: response.location →
      b.url.authority = a.url.authority)

lemma intact_of_httpsParseUrl {current : Bytes} {url : Url} (h : httpsParseUrl current = some url) :
    Request.Intact ⟨current, url, requestText url⟩ := by
  obtain ⟨hhttps, hlen, -, hsafe⟩ := httpsParseUrl_eq_some h
  have hat : ch '@' ∈ str "/?#@" := by decide
  exact ⟨h, rfl, hhttps, hsafe, hsafe.notMem_authority _ hat, hlen, hsafe.length_requestText⟩

/-- What one turn of the loop does. -/
lemma requestsFrom_succ (turns : ℕ) (current : Bytes) (server : ℕ → Option Headers) :
    requestsFrom (turns + 1) current server = [] ∨
      ∃ url, httpsParseUrl current = some url ∧
        (requestsFrom (turns + 1) current server = [⟨current, url, requestText url⟩] ∨
          ∃ response next, server 0 = some response ∧ isRedirect response.status = true ∧
            httpsRedirect url response.location = some next ∧
            requestsFrom (turns + 1) current server = ⟨current, url, requestText url⟩ ::
              requestsFrom turns next fun k => server (k + 1)) := by
  rw [requestsFrom]
  cases hurl : httpsParseUrl current with
  | none => exact .inl rfl
  | some url =>
    refine .inr ⟨url, rfl, ?_⟩
    dsimp only
    rw [if_pos (httpsParseUrl_eq_some hurl).2.2.2.length_requestText]
    cases server 0 with
    | none => exact .inl rfl
    | some response =>
      dsimp only
      split_ifs with hstatus
      · cases hnext : httpsRedirect url response.location with
        | none => exact .inl rfl
        | some next => exact .inr ⟨response, next, rfl, hstatus, hnext, rfl⟩
      · exact .inl rfl

lemma requestsFrom_intact {turns : ℕ} : ∀ {current : Bytes} {server : ℕ → Option Headers},
    ∀ r ∈ requestsFrom turns current server, r.Intact := by
  induction turns with
  | zero => exact fun {_ _} r hr => absurd hr List.not_mem_nil
  | succ turns ih =>
    intro current server r hr
    obtain heq | ⟨url, hurl, heq | ⟨response, next, -, -, -, heq⟩⟩ :=
      requestsFrom_succ turns current server
    · exact absurd (heq ▸ hr) List.not_mem_nil
    · obtain rfl := List.mem_singleton.1 (heq ▸ hr)
      exact intact_of_httpsParseUrl hurl
    · rcases List.mem_cons.1 (heq ▸ hr) with rfl | hr
      · exact intact_of_httpsParseUrl hurl
      · exact ih r hr

/-- The first request is for the URL the loop starts with. -/
lemma current_of_requestsFrom {turns : ℕ} {current : Bytes} {server : ℕ → Option Headers}
    {r : Request} (h : (requestsFrom turns current server)[0]? = some r) : r.current = current := by
  cases turns with
  | zero => exact absurd h (by simp [requestsFrom])
  | succ turns =>
    obtain heq | ⟨url, -, heq | ⟨response, next, -, -, -, heq⟩⟩ :=
      requestsFrom_succ turns current server
    · exact absurd h (by simp [heq])
    · rw [heq] at h
      exact congrArg Request.current (Option.some.inj h).symm
    · rw [heq] at h
      exact congrArg Request.current (Option.some.inj h).symm

lemma follows_of_httpsRedirect {a b : Request} {response : Headers} (ha : a.Intact) (hb : b.Intact)
    (hstatus : isRedirect response.status = true)
    (hnext : httpsRedirect a.url response.location = some b.current) :
    Follows a (some response) b := by
  refine ⟨response, rfl, hstatus, hnext, fun hhttps hslashes => ?_⟩
  obtain ⟨rest, hcurrent, hrest⟩ :=
    redirectText_authority ha.safe hhttps hslashes (httpsRedirect_eq_some hnext).1
  rw [(httpsParseUrl_eq_some hb.parsed).2.2.1, hcurrent, ha.safe.spanNot_authority hrest]

lemma requestsFrom_follows {turns : ℕ} : ∀ {current : Bytes} {server : ℕ → Option Headers} {k : ℕ}
    {a b : Request}, (requestsFrom turns current server)[k]? = some a →
    (requestsFrom turns current server)[k + 1]? = some b → Follows a (server k) b := by
  induction turns with
  | zero => exact fun {_ _ _ _ _} h _ => absurd h (by simp [requestsFrom])
  | succ turns ih =>
    intro current server k a b ha hb
    obtain heq | ⟨url, hurl, heq | ⟨response, next, hresponse, hstatus, hnext, heq⟩⟩ :=
      requestsFrom_succ turns current server
    · exact absurd ha (by simp [heq])
    · exact absurd hb (by simp [heq])
    · rw [heq] at ha hb
      rw [List.getElem?_cons_succ] at hb
      cases k with
      | zero =>
        obtain rfl := Option.some.inj ha
        have hcurrent := current_of_requestsFrom hb
        rw [hresponse]
        exact follows_of_httpsRedirect (intact_of_httpsParseUrl hurl)
          (requestsFrom_intact b (List.mem_of_getElem? hb)) hstatus (hcurrent ▸ hnext)
      | succ k =>
        rw [List.getElem?_cons_succ] at ha
        have hfollows := ih ha hb
        exact hfollows

lemma intact_of_mem_requests {initial : Bytes} {server : ℕ → Option Headers} {r : Request}
    (h : r ∈ requests initial server) : r.Intact := by
  unfold requests at h
  split_ifs at h
  · exact requestsFrom_intact r h
  · exact absurd h List.not_mem_nil

/-- **No request is injected or downgraded**, wherever the server redirects to. -/
theorem requests_intact (initial : Bytes) (server : ℕ → Option Headers) :
    (∀ r ∈ requests initial server, r.Intact) ∧
      ∀ k a b, (requests initial server)[k]? = some a →
        (requests initial server)[k + 1]? = some b → Follows a (server k) b := by
  refine ⟨fun _ => intact_of_mem_requests, ?_⟩
  unfold requests
  split_ifs with hlen
  · exact fun k a b => requestsFrom_follows
  · exact fun k a b ha => absurd ha (by simp)

/-- A download that is redirected twice: first within the path, then to the root. -/
def sampleServer : ℕ → Option Headers
  | 0 => some { Headers.ofStatus 302 with location := str "b?c" }
  | 1 => some { Headers.ofStatus 301 with location := str "/d" }
  | _ => none

example : (requests (str "HTTPS://host:8443/x/a?q#f") sampleServer).map (fun r => r.current) =
    [str "HTTPS://host:8443/x/a?q#f", str "https://host:8443/x/b?c", str "https://host:8443/d"] := by
  decide

end Wpm.Https
