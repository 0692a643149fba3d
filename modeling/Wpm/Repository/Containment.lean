import Wpm.Repository.Links

/-!
The containment of the repositories that are linked.

Every repository that a command comes to is of one of three kinds (`Rooted`): an address of `https`,
an address of plain `http` with the origin of one that is opted in to, or a directory. A link goes
from a repository to one of the same kind (`Rooted.link`), and so does a run of links.
-/

namespace Wpm.Repository

open Wpm.Lib.CString Wpm.Lib.FilePath
open Wpm.Archive (pathSize)

variable {fullPath : Bytes → Option Bytes} {config : Option Bytes}
  {repositories : List RepositoryEntry} {root r parent child : RepositoryEntry}

/-- What a repository is, on the list of any command. -/
inductive Rooted (fullPath : Bytes → Option Bytes) (config : Option Bytes) (r : RepositoryEntry) :
    Prop
  | https (h : isHttpsRepository r.url = true) (hlen : r.url.length < pathSize)
  | http {configured : RepositoryEntry} (h : OptedIn fullPath config configured)
      (horigin : webOrigin r.url = webOrigin configured.url)
      (hplain : PlainAuthority (webAuthority configured.url)) (hlen : r.url.length < pathSize)
      (hallow : r.allowInsecureHttp = true)
  | directory {v : Volume} {names : List Bytes} (h : Directory r.url v names)

/-! ### The configuration -/

/-- The repository is one that a line configures. -/
structure FromLine (fullPath : Bytes → Option Bytes) (lines : List Bytes) (r : RepositoryEntry)
    (url : Bytes) : Prop where
  configured : ∃ line ∈ lines, parseEntry line = some (r.priority, url, r.allowInsecureHttp)
  normalized : repositoryNormalize fullPath url = some r.url
  path : isWebRepository url = true ∨ fold url = fold r.url

lemma fromLine_loadLine {lines : List Bytes} {line : Bytes} {result : List RepositoryEntry}
    (h : ∀ r ∈ result, ∃ url, FromLine fullPath lines r url) (hline : line ∈ lines) :
    ∀ r ∈ loadLine fullPath result line, ∃ url, FromLine fullPath lines r url := by
  unfold loadLine
  intro r hr
  split at hr
  · exact h r hr
  · rename_i priority url allowHttp hentry
    split at hr
    · exact h r hr
    · rename_i normalized hnormalized
      split_ifs at hr with hpath hroom
      · exact h r hr
      · exact h r hr
      · rcases List.mem_append.1 hr with hr | hr
        · exact h r hr
        · rw [List.mem_singleton] at hr
          subst hr
          refine ⟨url, ⟨line, hline, hentry⟩, hnormalized, ?_⟩
          rw [not_and_or, Bool.not_eq_false, not_not] at hpath
          exact hpath

lemma fromLine_foldl {lines : List Bytes} : ∀ (more : List Bytes) (result : List RepositoryEntry),
    (∀ r ∈ result, ∃ url, FromLine fullPath lines r url) → (∀ line ∈ more, line ∈ lines) →
      ∀ r ∈ more.foldl (loadLine fullPath) result, ∃ url, FromLine fullPath lines r url
  | [], _, h, _ => h
  | line :: more, result, h, hsub =>
    fromLine_foldl more (loadLine fullPath result line)
      (fromLine_loadLine h (hsub line List.mem_cons_self))
      fun l hl => hsub l (List.mem_cons_of_mem line hl)

lemma loadRepositories_cases (h : r ∈ loadRepositories fullPath config) :
    (∃ url, FromLine fullPath (configLines config) r url) ∨
      r.url = defaultRepository := by
  have hlines : ∀ r ∈ (configLines config).foldl (loadLine fullPath) [],
      ∃ url, FromLine fullPath (configLines config) r url :=
    fromLine_foldl _ [] (fun r hr => absurd hr List.not_mem_nil) fun _ hl => hl
  unfold loadRepositories at h
  dsimp only at h
  split_ifs at h with hdefault
  · exact Or.inl (hlines r h)
  · rcases List.mem_append.1 h with h | h
    · exact Or.inl (hlines r h)
    · rw [List.mem_singleton] at h
      exact Or.inr (h ▸ rfl)

/-- A line that names plain `http` has the opt-in. -/
lemma allowHttp_of_parseEntry {line url : Bytes} {priority : ℤ} {allowHttp : Bool}
    (h : parseEntry line = some (priority, url, allowHttp)) (hhttp : isHttpRepository url = true) :
    allowHttp = true := by
  simp only [parseEntry, Option.bind_eq_bind, Option.bind_eq_some_iff] at h
  obtain ⟨⟨head, rest⟩, -, h⟩ := h
  dsimp only at h
  split_ifs at h
  obtain ⟨⟨url', allow⟩, -, h⟩ := Option.bind_eq_some_iff.1 h
  dsimp only at h
  split_ifs at h with hcond
  simp only [Option.some.injEq, Prod.mk.injEq] at h
  obtain ⟨-, rfl, rfl⟩ := h
  rcases hcond.2 with hnot | hallow
  · rw [hhttp] at hnot
    exact absurd hnot.symm Bool.false_ne_true
  · exact hallow

theorem Rooted.load (hfull : FullPathName fullPath) (h : r ∈ loadRepositories fullPath config) :
    Rooted fullPath config r := by
  rcases loadRepositories_cases h with ⟨url, hline⟩ | hdefault
  · obtain ⟨line, hmem, hentry⟩ := hline.configured
    by_cases hweb : isWebRepository url = true
    · obtain ⟨horigin, hlen, hplain⟩ := webOrigin_normalize hweb hline.normalized
      unfold isWebRepository at hweb
      rw [Bool.or_eq_true] at hweb
      by_cases hhttps : isHttpsRepository url = true
      · rw [isHttpsRepository_iff, ← horigin, ← isHttpsRepository_iff] at hhttps
        exact .https hhttps hlen
      · have hhttp := hweb.resolve_left hhttps
        have hallow := allowHttp_of_parseEntry hentry hhttp
        rw [hallow] at hentry
        have hhttp' : isHttpRepository r.url = true := by
          rwa [isHttpRepository_iff, horigin, ← isHttpRepository_iff]
        exact .http ⟨h, hhttp', hallow, line, hmem, url, hentry, hline.normalized⟩ rfl hplain hlen
          hallow
    · rw [Bool.not_eq_true] at hweb
      have hfold := hline.path.resolve_left (Bool.eq_false_iff.1 hweb)
      obtain ⟨v, names, hdir⟩ := exists_directory hfull hweb hline.normalized hfold
      exact .directory hdir
  · refine .https ?_ ?_ <;> rw [hdefault] <;> decide

/-! ### Links -/

/-- The new repository of a link that is followed. -/
structure Linked (fullPath : Bytes → Option Bytes) (repositories : List RepositoryEntry)
    (parent : RepositoryEntry) (link : Bytes) (child : RepositoryEntry) : Prop where
  source : ∃ source, packageSource parent.url link = some source ∧
    repositoryNormalize fullPath source = some child.url
  allow : child.allowInsecureHttp = parent.allowInsecureHttp
  fresh : ∀ r ∈ repositories, fold r.url ≠ fold child.url

lemma appendRepositoryLink_cases {link : Bytes} {repositories' : List RepositoryEntry}
    (h : appendRepositoryLink fullPath repositories parent link = some repositories') :
    repositories' = repositories ∨ ∃ child, repositories' = repositories ++ [child] ∧
      Linked fullPath repositories parent link child := by
  simp only [appendRepositoryLink, Option.bind_eq_bind, Option.bind_eq_some_iff] at h
  obtain ⟨source, hsource, normalized, hnormalized, h⟩ := h
  split_ifs at h with hknown hroom
  · exact Or.inl (Option.some.inj h).symm
  · refine Or.inr ⟨_, (Option.some.inj h).symm, ⟨source, hsource, hnormalized⟩, rfl, ?_⟩
    intro r hr hfold
    exact hknown (List.any_eq_true.2 ⟨r, hr, decide_eq_true hfold⟩)

lemma isHttpsRepository_of_web {source : Bytes} (hweb : isWebRepository source = true)
    (hnot : isHttpRepository source = false) : isHttpsRepository source = true := by
  simpa [isWebRepository, hnot] using hweb

lemma isHttpRepository_eq_false_of_https {source : Bytes} (h : isHttpsRepository source = true) :
    isHttpRepository source = false := by
  obtain ⟨authority, h⟩ := isHttpsRepository_iff.1 h
  rw [← Bool.not_eq_true, isHttpRepository_iff]
  rintro ⟨authority', h'⟩
  rw [h] at h'
  exact absurd h' (by simp)

lemma isWebRepository_of_https {source : Bytes} (h : isHttpsRepository source = true) :
    isWebRepository source = true := by rw [isWebRepository, h, Bool.true_or]

lemma isWebRepository_of_http {source : Bytes} (h : isHttpRepository source = true) :
    isWebRepository source = true := by rw [isWebRepository, h, Bool.or_true]

/-- What is derived from an address of `https` is one. -/
lemma isHttpsRepository_packageSource {url item source : Bytes}
    (hurl : isHttpsRepository url = true) (h : packageSource url item = some source) :
    isHttpsRepository source = true := by
  rcases webOrigin_packageSource (isWebRepository_of_https hurl) h with horigin | ⟨-, hsource⟩
  · rwa [isHttpsRepository_iff, horigin, ← isHttpsRepository_iff]
  · exact hsource

/-- What is derived from an address of plain `http` has its origin. -/
lemma webOrigin_packageSource_of_http {url item source : Bytes}
    (hurl : isHttpRepository url = true) (h : packageSource url item = some source) :
    webOrigin source = webOrigin url := by
  rcases webOrigin_packageSource (isWebRepository_of_http hurl) h with horigin | ⟨hhttps, -⟩
  · exact horigin
  · rw [isHttpRepository_eq_false_of_https hhttps] at hurl
    exact absurd hurl Bool.false_ne_true

/-- What is derived from a directory is a path of names joined to it. -/
lemma joinPath_of_packageSource {url item source : Bytes} (hurl : isWebRepository url = false)
    (h : packageSource url item = some source) :
    (∀ piece ∈ pieces item, IsName piece) ∧ joinPath url item = some source := by
  unfold packageSource at h
  rw [if_neg (Bool.eq_false_iff.1 hurl)] at h
  split_ifs at h with hsafe
  exact ⟨isName_of_safeRelativeItem hsafe, h⟩

lemma Linked.https {link : Bytes} (h : Linked fullPath repositories parent link child)
    (hparent : isHttpsRepository parent.url = true) :
    isHttpsRepository child.url = true ∧ child.url.length < pathSize := by
  obtain ⟨source, hsource, hnormalized⟩ := h.source
  have hhttps := isHttpsRepository_packageSource hparent hsource
  obtain ⟨horigin, hlen, -⟩ := webOrigin_normalize (isWebRepository_of_https hhttps) hnormalized
  exact ⟨by rwa [isHttpsRepository_iff, horigin, ← isHttpsRepository_iff], hlen⟩

lemma Linked.directory {link : Bytes} {v : Volume} {names : List Bytes}
    (hfull : FullPathName fullPath) (h : Linked fullPath repositories parent link child)
    (hmem : parent ∈ repositories) (hparent : Directory parent.url v names) :
    ∃ more ≠ [], Directory child.url v (names ++ more) := by
  obtain ⟨source, hsource, hnormalized⟩ := h.source
  obtain ⟨hitem, hjoin⟩ := joinPath_of_packageSource hparent.isWebRepository_eq hsource
  have hchild := hparent.normalize_join hfull hitem hjoin hnormalized
  refine ⟨settle (pieces link), fun hnil => ?_, hchild⟩
  -- a link to the directory itself is one to a repository that is listed
  rw [hnil, List.append_nil] at hchild
  exact h.fresh parent hmem (by rw [hparent.root_eq, hchild.root_eq])

/-- **A link leads to a repository of the same kind.** -/
theorem Rooted.link {link : Bytes} (hfull : FullPathName fullPath)
    (hparent : Rooted fullPath config parent) (hmem : parent ∈ repositories)
    (h : Linked fullPath repositories parent link child) : Rooted fullPath config child := by
  cases hparent with
  | https hhttps _ =>
    obtain ⟨hchild, hlen⟩ := h.https hhttps
    exact .https hchild hlen
  | http hopted horigin hplain _ hallow =>
    obtain ⟨source, hsource, hnormalized⟩ := h.source
    have hhttp : isHttpRepository parent.url = true := by
      rw [isHttpRepository_iff, horigin, ← isHttpRepository_iff]
      exact hopted.http
    have hsource' := webOrigin_packageSource_of_http hhttp hsource
    have hweb : isWebRepository source = true := by
      rw [isWebRepository_iff, hsource', ← isWebRepository_iff]
      exact isWebRepository_of_http hhttp
    obtain ⟨hchild, hlen, -⟩ := webOrigin_normalize hweb hnormalized
    exact .http hopted (by rw [hchild, hsource', horigin]) hplain hlen (h.allow.trans hallow)
  | directory hdir =>
    obtain ⟨more, -, hchild⟩ := h.directory hfull hmem hdir
    exact .directory hchild

/-- **Every repository that a command comes to is of one of the three kinds.** -/
theorem Explored.rooted (hfull : FullPathName fullPath) (h : Explored fullPath config repositories) :
    ∀ r ∈ repositories, Rooted fullPath config r := by
  induction h with
  | load => exact fun r hr => .load hfull hr
  | link _ hmem happend ih =>
    intro r hr
    rcases appendRepositoryLink_cases happend with rfl | ⟨child, rfl, hlink⟩
    · exact ih r hr
    · rcases List.mem_append.1 hr with hr | hr
      · exact ih r hr
      · rw [List.mem_singleton] at hr
        exact hr ▸ (ih _ hmem).link hfull hmem hlink

/-- The reading of an index keeps to such lists. -/
theorem Explored.followLinks (h : Explored fullPath config repositories) (hmem : parent ∈ repositories)
    (text : Bytes) : Explored fullPath config (followLinks fullPath parent repositories text) := by
  have hlinks : ∀ (links : List Bytes) (repositories : List RepositoryEntry),
      Explored fullPath config repositories → parent ∈ repositories →
        Explored fullPath config (links.foldl (fun repositories link =>
          (appendRepositoryLink fullPath repositories parent link).getD repositories)
            repositories) := by
    intro links
    induction links with
    | nil => exact fun _ h _ => h
    | cons link links ih =>
      intro repositories h hmem
      rw [List.foldl_cons]
      cases happend : appendRepositoryLink fullPath repositories parent link with
      | none => exact ih repositories h hmem
      | some repositories' =>
        refine ih repositories' (.link h hmem happend) ?_
        rcases appendRepositoryLink_cases happend with rfl | ⟨child, rfl, -⟩
        · exact hmem
        · exact List.mem_append_left _ hmem
  exact hlinks _ repositories h hmem

/-- What a root leads to, by its kind. -/
structure Below (root r : RepositoryEntry) : Prop where
  https : isHttpsRepository root.url = true → isHttpsRepository r.url = true
  directory : ∀ {v names}, Directory root.url v names →
    ∃ more, Directory r.url v (names ++ more) ∧ (r = root ∨ more ≠ [])

/-- **Along the links, an address of `https` stays one and a directory goes down.** -/
theorem Derived.goesDown (hfull : FullPathName fullPath) (h : Derived fullPath config root r) :
    Below root r := by
  induction h with
  | root => exact ⟨id, fun h => ⟨[], by rwa [List.append_nil], Or.inl rfl⟩⟩
  | link _ _ hmem happend ih =>
    rcases appendRepositoryLink_cases happend with heq | ⟨child, heq, hlink⟩
    · exact absurd (List.append_right_eq_self.1 heq) (List.cons_ne_nil _ _)
    · obtain rfl := (List.cons.inj (List.append_cancel_left heq)).1
      refine ⟨fun hhttps => (hlink.https (ih.https hhttps)).1, fun hdir => ?_⟩
      obtain ⟨more, hparent, -⟩ := ih.directory hdir
      obtain ⟨names, hne, hchild⟩ := hlink.directory hfull hmem hparent
      rw [List.append_assoc] at hchild
      exact ⟨more ++ names, hchild, Or.inr (List.append_ne_nil_of_right_ne_nil more hne)⟩

lemma Derived.rooted (hfull : FullPathName fullPath) (hroot : Rooted fullPath config root)
    (h : Derived fullPath config root r) : Rooted fullPath config r := by
  cases h with
  | root => exact hroot
  | link _ hexplored hmem happend =>
    exact (Explored.link hexplored hmem happend).rooted hfull r
      (List.mem_append_right _ List.mem_cons_self)

/-! ### The places on the list -/

/-- The order of every repository is its place on the list. -/
def Numbered (repositories : List RepositoryEntry) : Prop :=
  ∀ (i : ℕ) (r : RepositoryEntry), repositories[i]? = some r → r.order = i

lemma Numbered.concat (h : Numbered repositories) (hr : r.order = repositories.length) :
    Numbered (repositories ++ [r]) := by
  intro i r' hi
  rw [List.getElem?_append] at hi
  split_ifs at hi with hlt
  · exact h i r' hi
  · rw [List.getElem?_singleton] at hi
    split_ifs at hi with hzero
    rw [← Option.some.inj hi, hr]
    omega

lemma numbered_foldl_loadLine : ∀ (lines : List Bytes) (result : List RepositoryEntry),
    Numbered result → Numbered (lines.foldl (loadLine fullPath) result)
  | [], _, h => h
  | line :: lines, result, h => by
    refine numbered_foldl_loadLine lines (loadLine fullPath result line) ?_
    unfold loadLine
    split
    · exact h
    · split
      · exact h
      · split_ifs
        · exact h
        · exact h
        · exact h.concat rfl

/-- **An entry of a catalog finds the repository that it is from**, and with it the opt-in that its
archive is retrieved with. -/
theorem Explored.numbered (h : Explored fullPath config repositories) : Numbered repositories := by
  induction h with
  | load =>
    have hlines := @numbered_foldl_loadLine fullPath (configLines config) []
      fun i r hi => absurd hi (by simp)
    unfold loadRepositories
    dsimp only
    split_ifs
    · exact hlines
    · exact hlines.concat rfl
  | link _ _ happend ih =>
    simp only [appendRepositoryLink, Option.bind_eq_bind, Option.bind_eq_some_iff] at happend
    obtain ⟨source, -, normalized, -, happend⟩ := happend
    split_ifs at happend
    · exact Option.some.inj happend ▸ ih
    · exact Option.some.inj happend ▸ ih.concat rfl

/-! ### Locations and retrievals -/

/-- The origin of a web address is that of all its locations, unless they are of `https` too. -/
lemma Location.origin {location : Bytes} (hweb : isWebRepository r.url = true)
    (hlen : r.url.length < pathSize) (h : Location r location) :
    webOrigin location = webOrigin r.url ∨
      isHttpsRepository r.url = true ∧ isHttpsRepository location = true := by
  induction h with
  | root => exact Or.inl rfl
  | source hsource =>
    cases hsource with
    | index hindex => exact Or.inl (webOrigin_indexSource hweb hlen hindex)
    | package hpackage => exact webOrigin_packageSource hweb hpackage
  | redirect _ hinitial hredirect ih =>
    have horigin := webOrigin_httpRedirectUrl hinitial hredirect
    rcases ih with heq | ⟨hhttps, hsource⟩
    · exact Or.inl (horigin.trans heq)
    · exact Or.inr ⟨hhttps, by rwa [isHttpsRepository_iff, horigin, ← isHttpsRepository_iff]⟩

/-- No location of a directory is a web address. -/
lemma Location.directory {location : Bytes} {v : Volume} {names : List Bytes}
    (hdir : Directory r.url v names) (h : Location r location) :
    isWebRepository location = false := by
  have hjoin : ∀ {item source : Bytes}, joinPath r.url item = some source →
      isWebRepository source = false := by
    intro item source hjoin
    rw [hdir.joinPath_eq hjoin, fullName, List.append_assoc]
    exact isWebRepository_volume v _
  have hweb := hdir.isWebRepository_eq
  induction h with
  | root => exact hweb
  | source hsource =>
    cases hsource with
    | index hindex =>
      rw [indexSource, if_neg (Bool.eq_false_iff.1 hweb)] at hindex
      exact hjoin hindex
    | package hpackage => exact hjoin (joinPath_of_packageSource hweb hpackage).2
  | redirect _ hinitial _ ih => exact absurd (ih.symm.trans hinitial) Bool.false_ne_true

/-- What is retrieved for a directory is beneath it. -/
lemma Source.beneath {source : Bytes} {v : Volume} {names : List Bytes}
    (hdir : Directory r.url v names) (h : Source r source) : Beneath r.url source := by
  have hweb := hdir.isWebRepository_eq
  cases h with
  | index hindex =>
    rw [indexSource, if_neg (Bool.eq_false_iff.1 hweb)] at hindex
    refine hdir.beneath_join ?_ hindex
    decide
  | package hpackage =>
    obtain ⟨hitem, hjoin⟩ := joinPath_of_packageSource hweb hpackage
    exact hdir.beneath_join hitem hjoin

/-- An address of plain `http` with the origin of one that is kept has its authority. -/
lemma sameAuthority_of_webOrigin {a b : Bytes} (h : webOrigin a = webOrigin b)
    (hb : isHttpRepository b = true) (hplain : PlainAuthority (webAuthority b)) :
    SameAuthority a b := by
  have ha : isHttpRepository a = true := by rwa [isHttpRepository_iff, h, ← isHttpRepository_iff]
  have hauthority : ∀ {s : Bytes}, isHttpRepository s = true →
      webOrigin s = some (false, fold (webAuthority s)) ∧
        webAuthority s = spanNot [ch '/'] (s.drop 7) := by
    intro s hs
    have hnot : ¬ isHttpsRepository s = true := by
      intro hhttps
      rw [isHttpRepository_eq_false_of_https hhttps] at hs
      exact Bool.false_ne_true hs
    rw [webOrigin, if_neg hnot, if_pos hs, webAuthority, schemeLength, if_neg hnot]
    exact ⟨rfl, rfl⟩
  have hfold : fold (webAuthority a) = fold (webAuthority b) := by
    rw [(hauthority ha).1, (hauthority hb).1] at h
    exact (Prod.mk.inj (Option.some.inj h)).2
  -- the characters that are refused are no letters, so that they stay out in any letter case
  have hplain' : ∀ c ∈ webAuthority a, c ∉ str "\\@?#" := by
    intro c hc hbad
    have hlower : lower c ∈ fold (webAuthority b) := hfold ▸ List.mem_map_of_mem hc
    obtain ⟨d, hd, hdc⟩ := List.mem_map.1 hlower
    have hnot : isAlpha c = false := by
      have hall : ∀ x ∈ str "\\@?#", isAlpha x = false := by decide +kernel
      exact hall c hbad
    rw [eq_of_lower_eq hnot hdc] at hd
    exact hplain.plain c hd hbad
  have hread : ∀ {s : Bytes}, isHttpRepository s = true →
      (∀ c ∈ webAuthority s, c ∉ str "\\@?#") → httpAuthority s = webAuthority s := by
    intro s hs hchars
    have hslash : ch '/' ∉ webAuthority s := by
      rw [(hauthority hs).2]
      intro hmem
      exact absurd (List.mem_takeWhile_imp hmem) (by decide)
    have hsub : ∀ x ∈ str "/\\?#", x = ch '/' ∨ x ∈ str "\\@?#" := by decide +kernel
    rw [(hauthority hs).2] at hchars hslash ⊢
    refine spanNot_eq_of_subset (by decide) fun c hc hmem => ?_
    rcases hsub c hmem with rfl | hbad
    · exact hslash hc
    · exact hchars c hc hbad
  have hreadA := hread ha hplain'
  have hreadB := hread hb hplain.plain
  refine ⟨ha, hb, by rw [hreadA, hreadB, hfold], ?_, ?_⟩
  · rw [hreadA]
    intro hnil
    rw [hnil] at hfold
    exact hplain.ne_nil (List.map_eq_nil_iff.1 hfold.symm)
  · rw [hreadA]
    exact fun hmem => hplain' _ hmem (by decide)

/-- Every address that a download requests is a location of the repository. -/
lemma location_of_mem_httpRequests {url : Bytes} (hurl : Location r url)
    (hweb : isWebRepository url = true) : ∀ (n : ℕ) (current : Bytes) (replies : List Reply),
      Location r current → ∀ request ∈ httpRequests url n current replies, Location r request
  | 0, _, _, _, _, h => absurd h List.not_mem_nil
  | _ + 1, current, [], hcurrent, request, h => by
    rw [httpRequests, List.mem_singleton] at h
    exact h ▸ hcurrent
  | n + 1, current, reply :: replies, hcurrent, request, h => by
    rw [httpRequests, List.mem_cons] at h
    rcases h with rfl | h
    · exact hcurrent
    · split_ifs at h
      · exact absurd h List.not_mem_nil
      · cases hnext : reply.location.bind (httpRedirectUrl url) with
        | none => rw [hnext] at h; exact absurd h List.not_mem_nil
        | some next =>
          rw [hnext] at h
          obtain ⟨location, -, hredirect⟩ := Option.bind_eq_some_iff.1 hnext
          exact location_of_mem_httpRequests hurl hweb n next replies
            (.redirect hurl hweb hredirect) request h

lemma retrieval {source : Bytes} (hsource : Source r source) {backend : HttpsBackend}
    {servers : Servers} {transfer : Transfer}
    (h : transfer ∈ retrieve backend source r.allowInsecureHttp servers) : transfer.Permitted r := by
  unfold retrieve at h
  split_ifs at h with hhttps hhttp hallow
  · cases backend with
    | bundled =>
      obtain ⟨request, hrequest, rfl⟩ := List.mem_map.1 h
      exact Https.intact_of_mem_requests hrequest
    | urlmon =>
      obtain ⟨address, haddress, rfl⟩ := List.mem_map.1 h
      rw [urlmonDownload, if_pos hhttps] at haddress
      rcases List.mem_cons.1 haddress with rfl | hredirect
      · exact hhttps
      · have hallowed := List.mem_takeWhile_imp hredirect
        simp only [allowsRedirect, Bool.and_eq_true, Bool.not_eq_true'] at hallowed
        exact isHttpsRepository_of_web hallowed.1.2 hallowed.2
    | invalid => exact absurd h List.not_mem_nil
  · obtain ⟨address, haddress, rfl⟩ := List.mem_map.1 h
    unfold httpDownload at haddress
    split_ifs at haddress
    · exact ⟨hallow, location_of_mem_httpRequests (.source hsource)
        (isWebRepository_of_http hhttp) 6 source servers.replies (.source hsource) address haddress⟩
    · exact absurd haddress List.not_mem_nil
  · exact absurd h List.not_mem_nil
  · exact absurd h List.not_mem_nil

/-- **Everything that is derived from a repository stays where its root is**, whatever the
configuration and the indexes hold: over any number of links, `https` never leads to plain `http`,
plain `http` stays with the authorities that are opted in to, and a directory leads to what is
beneath it. -/
theorem derived_contained (hfull : FullPathName fullPath)
    (hexplored : Explored fullPath config repositories) (hroot : root ∈ repositories)
    (h : Derived fullPath config root r) : Contained fullPath config root r := by
  have hrooted := hexplored.rooted hfull root hroot
  have hbelow := h.goesDown hfull
  have hkind := h.rooted hfull hrooted
  refine ⟨fun hhttps location hlocation => ?_, fun location hlocation hhttp => ?_,
    fun source hsource backend servers transfer htransfer => retrieval hsource htransfer,
    fun hpath => ?_⟩
  · have hr := hbelow.https hhttps
    have hlen : r.url.length < pathSize := by
      cases hkind with
      | https _ hlen => exact hlen
      | http _ _ _ hlen _ => exact hlen
      | directory hdir =>
        have hweb := hdir.isWebRepository_eq
        rw [isWebRepository_of_https hr] at hweb
        exact absurd hweb.symm Bool.false_ne_true
    refine isHttpRepository_eq_false_of_https ?_
    rcases hlocation.origin (isWebRepository_of_https hr) hlen with horigin | ⟨-, hhttps'⟩
    · rwa [isHttpsRepository_iff, horigin, ← isHttpsRepository_iff]
    · exact hhttps'
  · have hnot : ∀ {source : Bytes}, isHttpRepository source = true →
        ¬ isHttpsRepository source = true := by
      intro source hs hhttps
      rw [isHttpRepository_eq_false_of_https hhttps] at hs
      exact Bool.false_ne_true hs
    cases hkind with
    | https hhttps hlen =>
      exfalso
      rcases hlocation.origin (isWebRepository_of_https hhttps) hlen with horigin | ⟨-, hhttps'⟩
      · rw [isHttpsRepository_iff, ← horigin, ← isHttpsRepository_iff] at hhttps
        exact hnot hhttp hhttps
      · exact hnot hhttp hhttps'
    | @http configured hopted horigin hplain hlen _ =>
      have hr : isHttpRepository r.url = true := by
        rw [isHttpRepository_iff, horigin, ← isHttpRepository_iff]
        exact hopted.http
      rcases hlocation.origin (isWebRepository_of_http hr) hlen with heq | ⟨hhttps, -⟩
      · exact ⟨configured, hopted,
          sameAuthority_of_webOrigin (heq.trans horigin) hopted.http hplain⟩
      · exact absurd hhttps (hnot hr)
    | directory hdir =>
      have hweb := hlocation.directory hdir
      rw [isWebRepository_of_http hhttp] at hweb
      exact absurd hweb.symm Bool.false_ne_true
  · cases hrooted with
    | https hhttps _ =>
      rw [isWebRepository_of_https hhttps] at hpath
      exact absurd hpath.symm Bool.false_ne_true
    | http hopted horigin _ _ _ =>
      have hr : isHttpRepository root.url = true := by
        rw [isHttpRepository_iff, horigin, ← isHttpRepository_iff]
        exact hopted.http
      rw [isWebRepository_of_http hr] at hpath
      exact absurd hpath.symm Bool.false_ne_true
    | directory hdir =>
      obtain ⟨more, hmore, hne⟩ := hbelow.directory hdir
      rcases hne with rfl | hne
      · exact ⟨Or.inl rfl, fun source hsource => hsource.beneath hdir⟩
      · have hbeneath := hdir.beneath hmore hne
        exact ⟨Or.inr hbeneath, fun source hsource => hbeneath.trans (hsource.beneath hmore)⟩

/-- A configuration of a directory and of a server that is opted in to. -/
def sampleConfig : Option Bytes :=
  some (str "5\tC:\\repo\r\n1\thttp://Host/pkg/\tallow-insecure-http=true\r\n")

def sampleRoots : List RepositoryEntry :=
  [⟨str "C:\\repo", 5, 0, false⟩, ⟨str "http://Host/pkg", 1, 1, true⟩,
    ⟨defaultRepository, 0, 2, false⟩]

def sampleDirectory : RepositoryEntry := ⟨str "C:\\repo", 5, 0, false⟩

def sampleMirror : RepositoryEntry := ⟨str "C:\\repo\\old\\mirror", 5, 3, false⟩

theorem derived_contained_sample :
    Contained fullPathName sampleConfig sampleDirectory sampleMirror := by
  have hload : loadRepositories fullPathName sampleConfig = sampleRoots := by decide
  have hexplored : Explored fullPathName sampleConfig sampleRoots := hload ▸ .load
  have hmem : sampleDirectory ∈ sampleRoots := by decide
  have happend : appendRepositoryLink fullPathName sampleRoots sampleDirectory
      (str "old./mirror.. ") = some (sampleRoots ++ [sampleMirror]) := by decide
  exact derived_contained fullPathName_fullPathName hexplored hmem
    (.link .root hexplored hmem happend)

end Wpm.Repository
