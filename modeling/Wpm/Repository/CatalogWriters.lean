import Wpm.Archive.Metadata
import Wpm.JsonEncoding
import Wpm.Repository.CatalogText

/-!
The publisher's writers of a catalog.

`wpm_repo_add_package` puts the text of one package in front of the bracket that closes the array of
packages; `wpm_repo_index` replaces everything between the brackets by the packages that it finds,
in the order of `author_index_order`. What either writes is again a catalog, with the old text
around the place that it has changed.
-/

namespace Wpm.Repository

open Wpm.Lib.CString Wpm.Lib.Json Wpm.Lib.Gather Wpm.JsonInput
open Wpm.Archive (pathSize archiveInspect)
open Wpm.JsonOutput (encodeByte spells_flatMap)
open Wpm.Operation (PackageInfo)

/-! ### The text of a package -/

/-- What `author_json_string` puts out for a byte. -/
def authorEscape (c : UInt8) : Bytes :=
  if c < 0x20 then str "\\u00" ++ [hexDigit (c >>> 4), hexDigit (c &&& 15)]
  else if c = ch '"' ∨ c = ch '\\' then [ch '\\', c]
  else [c]

/-- The loop of `author_json_string`, with what it has put out. -/
def authorJsonFrom (capacity : ℕ) : Bytes → Bytes → Option Bytes
  | output, [] => some (output ++ [ch '"'])
  | output, c :: value =>
    if capacity ≤ output.length + 7 then none
    else authorJsonFrom capacity (output ++ authorEscape c) value

/-- `author_json_string`. -/
def authorJsonString (capacity : ℕ) (value : Bytes) : Option Bytes :=
  if capacity < 3 then none else authorJsonFrom capacity [ch '"'] value

/-- The text of a package, behind a comma unless it is the first one. The values are JSON strings. -/
def packageText (behind : Bool) (name version arch url : Bytes) : Bytes :=
  (if behind then [ch ','] else []) ++ str "\x7b\"name\":" ++ name ++ str ",\"version\":" ++ version ++
    str ",\"arch\":" ++ arch ++ str ",\"url\":" ++ url ++ str "\x7d"

lemma authorEscape_eq (c : UInt8) : authorEscape c = encodeByte c := by
  have hall : ∀ c : Fin 256, authorEscape (UInt8.ofFin c) = encodeByte (UInt8.ofFin c) := by
    decide +kernel
  exact hall c.toFin

lemma authorJsonFrom_eq_some {capacity : ℕ} : ∀ {value output out : Bytes},
    authorJsonFrom capacity output value = some out →
      out = output ++ value.flatMap encodeByte ++ [ch '"']
  | [], output, out, h => by
    rw [← Option.some.inj h]
    simp
  | c :: value, output, out, h => by
    obtain ⟨-, h⟩ := Option.ite_none_left_eq_some.1 h
    rw [authorJsonFrom_eq_some h, List.flatMap_cons, authorEscape_eq]
    simp

/-- **The string** that is written stands for the value. -/
lemma stringIs_authorJsonString {capacity : ℕ} {value out : Bytes} (hzero : 0 ∉ value)
    (h : authorJsonString capacity value = some out) : StringIs out value := by
  obtain ⟨-, h⟩ := Option.ite_none_left_eq_some.1 h
  rw [authorJsonFrom_eq_some h]
  exact ⟨_, spells_flatMap hzero, rfl⟩

/-- The strings are those of an entry, each of which fits its buffer. -/
structure Spelled (e : PackageEntry) (name version arch url : Bytes) : Prop where
  name : StringIs name e.name
  version : StringIs version e.version
  arch : StringIs arch e.arch
  url : StringIs url e.url

/-- **An entry that the readers take**: its fields fit their buffers, it has a version, and an
architecture that is known. -/
structure PackageEntry.Sound (e : PackageEntry) : Prop where
  name : e.name ≠ [] ∧ 0 ∉ e.name ∧ e.name.length < 128
  version : e.version ≠ [] ∧ 0 ∉ e.version ∧ e.version.length < 64
  arch : e.arch ≠ [] ∧ 0 ∉ e.arch ∧ e.arch.length < 16
  url : e.url ≠ [] ∧ 0 ∉ e.url ∧ e.url.length < pathSize
  versioned : (semverParse e.version).isSome = true
  known : knownArch e.arch = true
  unplaced : e.priority = 0 ∧ e.order = 0

/-- The members of the text of a package. -/
def packageFields (name version arch url : Bytes) : List (Bytes × Bytes) :=
  [(str "name", name), (str "version", version), (str "arch", arch), (str "url", url)]

lemma packageText_eq (behind : Bool) (name version arch url : Bytes) :
    packageText behind name version arch url = (if behind then [ch ','] else []) ++
      objectText (packageFields name version arch url) := by
  have hcommas : ∀ a b c d : Bytes, commas [a, b, c, d] =
      a ++ ch ',' :: (b ++ ch ',' :: (c ++ ch ',' :: d)) := by
    intro a b c d
    rw [commas_cons a (by simp), commas_cons b (by simp), commas_cons c (by simp), commas_singleton]
  have hmember : memberText (str "name", name) = str "\"name\":" ++ name ∧
      memberText (str "version", version) = str "\"version\":" ++ version ∧
      memberText (str "arch", arch) = str "\"arch\":" ++ arch ∧
      memberText (str "url", url) = str "\"url\":" ++ url := ⟨rfl, rfl, rfl, rfl⟩
  have hbetween : str "\x7b\"name\":" = ch '{' :: str "\"name\":" ∧
      str ",\"version\":" = ch ',' :: str "\"version\":" ∧
      str ",\"arch\":" = ch ',' :: str "\"arch\":" ∧ str ",\"url\":" = ch ',' :: str "\"url\":" ∧
      str "\x7d" = [ch '}'] := ⟨rfl, rfl, rfl, rfl, rfl⟩
  obtain ⟨hname, hversion, harch, hurl⟩ := hmember
  obtain ⟨hname', hversion', harch', hurl', hend⟩ := hbetween
  rw [packageText, objectText, packageFields, List.map_cons, List.map_cons, List.map_cons,
    List.map_cons, List.map_nil, hcommas, hname, hversion, harch, hurl, hname', hversion', harch',
    hurl', hend]
  simp only [List.append_assoc, List.cons_append]

variable {e : PackageEntry} {name version arch url : Bytes}

lemma Spelled.fields (h : Spelled e name version arch url) :
    Fields (packageFields name version arch url) :=
  .cons (by decide) (.string (StringIs.isString h.name)) <|
  .cons (by decide) (.string (StringIs.isString h.version)) <|
  .cons (by decide) (.string (StringIs.isString h.arch)) <|
  .cons (by decide) (.string (StringIs.isString h.url)) .nil

lemma once_of_stringIs {size : ℕ} {s out : Bytes} (hs : StringIs s out)
    (h : out ≠ [] ∧ 0 ∉ out ∧ out.length < size) : once size none s = some out := by
  have hread := (stringOf_iff (Nat.zero_lt_of_lt h.2.2) (StringIs.isString hs)).2 ⟨hs, h.2⟩
  unfold once
  rw [hread]
  exact if_neg h.1

/-- **The text of a package is read as its entry.** -/
lemma valueEntry_package (h : Spelled e name version arch url) (he : e.Sound)
    (hsize : (objectText (packageFields name version arch url)).length ≤ sizeMax) :
    valueEntry (objectText (packageFields name version arch url)) = some e := by
  have hobject := isObject_objectText h.fields
  have hread := authorEntry_object whitespace_nil hobject [] (by rwa [List.append_nil])
  have hkeys : keyOf (str "\"name\"") = str "name" ∧ keyOf (str "\"version\"") = str "version" ∧
      keyOf (str "\"arch\"") = str "arch" ∧ keyOf (str "\"url\"") = str "url" := by decide
  obtain ⟨hname, hversion, harch, hurl⟩ := hkeys
  have htake : AuthorFields.takeAll ⟨none, none, none, none⟩
      ((packageFields name version arch url).map writtenMember) =
        some ⟨some e.name, some e.version, some e.arch, some e.url⟩ := by
    change (AuthorFields.take ⟨none, none, none, none⟩ (keyOf (str "\"name\"")) name).bind (fun f =>
      (f.take (keyOf (str "\"version\"")) version).bind fun f =>
      (f.take (keyOf (str "\"arch\"")) arch).bind fun f =>
      (f.take (keyOf (str "\"url\"")) url).bind fun f => some f) = _
    rw [hname, hversion, harch, hurl, AuthorFields.take, if_pos rfl,
      once_of_stringIs h.name he.name, Option.map_some, Option.bind_some, AuthorFields.take,
      if_neg (by decide), if_pos rfl, once_of_stringIs h.version he.version, Option.map_some,
      Option.bind_some, AuthorFields.take, if_neg (by decide), if_neg (by decide), if_pos rfl,
      once_of_stringIs h.arch he.arch, Option.map_some, Option.bind_some, AuthorFields.take,
      if_neg (by decide), if_neg (by decide), if_neg (by decide), if_pos rfl,
      once_of_stringIs h.url he.url]
    rfl
  rw [List.nil_append, List.append_nil, htake, Option.bind_some, AuthorFields.entry,
    if_pos ⟨he.versioned, he.known⟩] at hread
  obtain ⟨hpriority, horder⟩ := he.unplaced
  rw [valueEntry, hread]
  obtain ⟨name', version', arch', url', priority, order⟩ := e
  simp only at hpriority horder
  rw [hpriority, horder]
  rfl

/-- No two of the entries are of the same package. -/
def Different (entries : List PackageEntry) : Prop := NoClash samePackage entries

/-! ### What is known of an archive -/

lemma zero_notMem_of_isSafe {value : Bytes} (h : Archive.isSafeMetadataValue value = true) :
    value ≠ [] ∧ 0 ∉ value := by
  rw [Archive.isSafeMetadataValue] at h
  simp only [Bool.and_eq_true, decide_eq_true_eq, List.all_eq_true] at h
  obtain ⟨⟨⟨hne, -⟩, -⟩, hall⟩ := h
  exact ⟨hne, fun hmem => absurd (hall 0 hmem) (by decide)⟩

lemma lengths_of_readSettings : ∀ {lines : List Bytes} {m m' : Archive.PackageMetadata},
    Archive.readSettings lines m = some m' → m.name.length < 128 ∧ m.version.length < 64 →
      m'.name.length < 128 ∧ m'.version.length < 64
  | [], m, m', h, hm => Option.some.inj h ▸ hm
  | line :: lines, m, m', h, hm => by
    rw [Archive.readSettings] at h
    cases hsetting : Archive.lineSetting line with
    | none =>
      rw [hsetting] at h
      exact lengths_of_readSettings h hm
    | some setting =>
      obtain ⟨key, value⟩ := setting
      cases happly : Archive.applySetting m key value with
      | none =>
        simp only [hsetting, happly] at h
        exact absurd h (by simp)
      | some m₁ =>
        simp only [hsetting, happly] at h
        refine lengths_of_readSettings h ?_
        unfold Archive.applySetting at happly
        split_ifs at happly with h1 h2 h3 h4 h5 h6 h7
        · rw [← Option.some.inj happly]
          exact ⟨Nat.lt_of_not_le h2, hm.2⟩
        · rw [← Option.some.inj happly]
          exact ⟨hm.1, Nat.lt_of_not_le h4⟩
        · rw [← Option.some.inj happly]
          exact hm
        · obtain ⟨debug, -, rfl⟩ := Option.map_eq_some_iff.1 happly
          exact hm
        · rw [← Option.some.inj happly]
          exact hm

/-- An architecture that is known. -/
lemma of_knownArch {arch : Bytes} (h : knownArch arch = true) :
    arch ≠ [] ∧ 0 ∉ arch ∧ arch.length < 16 := by
  have hknown : fold arch ∈ [str "any", str "x86", str "x64", str "arm64"] := by
    simpa [knownArch] using h
  have hall : ∀ a ∈ [str "any", str "x86", str "x64", str "arm64"],
      a ≠ [] ∧ 0 ∉ a ∧ a.length < 16 := by decide
  obtain ⟨hne, hzero, hlen⟩ := hall _ hknown
  rw [length_fold] at hlen
  refine ⟨?_, fun hmem => hzero ?_, hlen⟩
  · rintro rfl
    exact hne rfl
  · exact List.mem_map.2 ⟨0, hmem, by decide⟩

/-- **What the publisher asks of an archive** gives a sound entry, under a short URL. -/
lemma sound_of_archiveInspect {metadata url : Bytes} {info : PackageInfo}
    (h : archiveInspect metadata = some info) (harch : knownArch info.arch = true)
    (hversion : (semverParse info.version).isSome = true)
    (hurl : url ≠ [] ∧ 0 ∉ url ∧ url.length < pathSize) :
    PackageEntry.Sound ⟨info.name, info.version, info.arch, url, 0, 0⟩ := by
  obtain ⟨m, hm, rfl⟩ := Option.map_eq_some_iff.1 h
  obtain ⟨-, hm⟩ := Option.ite_none_left_eq_some.1 hm
  obtain ⟨m', hsettings, hm⟩ := Option.bind_eq_some_iff.1 hm
  obtain ⟨hsafe, hm⟩ := Option.ite_none_right_eq_some.1 hm
  obtain rfl := Option.some.inj hm
  simp only [Bool.and_eq_true] at hsafe
  obtain ⟨⟨hname, hver⟩, -⟩ := hsafe
  obtain ⟨hnamelen, hverlen⟩ := lengths_of_readSettings hsettings (by decide)
  have hcopy : ∀ {size : ℕ} {text : Bytes}, text.length < size → Operation.copyText size text = text :=
    fun hlen => if_pos hlen
  obtain ⟨hne, hzero⟩ := zero_notMem_of_isSafe hname
  obtain ⟨hne', hzero'⟩ := zero_notMem_of_isSafe hver
  constructor
  · rw [hcopy hnamelen]
    exact ⟨hne, hzero, hnamelen⟩
  · rw [hcopy hverlen]
    exact ⟨hne', hzero', hverlen⟩
  · exact of_knownArch harch
  · exact hurl
  · exact hversion
  · exact harch
  · exact ⟨rfl, rfl⟩

/-! ### Adding a package -/

/-- The name under which `wpm_repo_add_package` publishes an archive with this hash. -/
def addedItem (hash : Bytes) : Bytes := str "packages/" ++ bin2hex hash ++ str ".zip"

/-- The entry for the archive. -/
def addedEntry (info : PackageInfo) (hash : Bytes) : PackageEntry :=
  ⟨info.name, info.version, info.arch, addedItem hash, 0, 0⟩

/-- The document that `wpm_repo_add_package` makes of the one that it reads, for an archive with this
identity and hash. -/
def addedCatalog (text : Bytes) (info : PackageInfo) (hash : Bytes) : Option Bytes :=
  match authorCatalog text with
  | none => none
  | some (entries, arrayEnd) =>
    if entries.length = maxPackages ∨ info.name = [] ∨ knownArch info.arch = false ∨
        (semverParse info.version).isSome = false ∨
        (entries.any fun old => samePackage old (addedEntry info hash)) = true then none
    else
      match authorJsonString 800 info.name, authorJsonString 400 info.version,
        authorJsonString 120 info.arch with
      | some name, some version, some arch =>
        let entry := packageText (entries ≠ []) name version arch
          (ch '"' :: addedItem hash ++ [ch '"'])
        if 1600 ≤ entry.length ∨ 4 * 1024 * 1024 < text.length + entry.length then none
        else some (text.take (text.length - arrayEnd.length) ++ entry ++ arrayEnd)
      | _, _, _ => none

lemma hexDigit_mem {n : UInt8} (h : n.toNat < 16) : hexDigit n ∈ str "0123456789abcdef" := by
  have hall : ∀ m ∈ List.range 16, hexDigit (UInt8.ofNat m) ∈ str "0123456789abcdef" := by decide
  have hn := hall n.toNat (List.mem_range.2 h)
  rwa [UInt8.ofNat_toNat] at hn

lemma mem_bin2hex {s : Bytes} {c : UInt8} (h : c ∈ bin2hex s) : c ∈ str "0123456789abcdef" := by
  obtain ⟨b, -, hb⟩ := List.mem_flatMap.1 h
  have hlt := b.toNat_lt
  have hhigh : (b / 16).toNat < 16 := by
    rw [UInt8.toNat_div]
    exact Nat.div_lt_of_lt_mul hlt
  have hlow : (b % 16).toNat < 16 := by
    rw [UInt8.toNat_mod]
    exact Nat.mod_lt _ (by decide)
  rcases List.mem_cons.1 hb with rfl | hb
  · exact hexDigit_mem hhigh
  · obtain rfl := List.mem_singleton.1 hb
    exact hexDigit_mem hlow

lemma plain_bin2hex (s : Bytes) : Plain (bin2hex s) ∧ 0 ∉ bin2hex s := by
  have hall : ∀ c ∈ str "0123456789abcdef", (0x20 ≤ c ∧ c ≠ ch '"' ∧ c ≠ ch '\\') ∧ c ≠ 0 :=
    forall_mem_of_all (by decide)
  exact ⟨fun c hc => (hall c (mem_bin2hex hc)).1, fun h => (hall 0 (mem_bin2hex h)).2 rfl⟩

lemma plain_addedItem (hash : Bytes) : Plain (addedItem hash) ∧ 0 ∉ addedItem hash := by
  obtain ⟨hplain, hzero⟩ := plain_bin2hex hash
  have hends : Plain (str "packages/") ∧ Plain (str ".zip") ∧ 0 ∉ str "packages/" ∧
      0 ∉ str ".zip" := by decide
  obtain ⟨hfront, hback, hzero', hzero''⟩ := hends
  constructor
  · intro c hc
    rcases List.mem_append.1 hc with hc | hc
    · rcases List.mem_append.1 hc with hc | hc
      · exact hfront c hc
      · exact hplain c hc
    · exact hback c hc
  · simp only [addedItem, List.mem_append, not_or]
    exact ⟨⟨hzero', hzero⟩, hzero''⟩

lemma spells_of_plain {s : Bytes} (h : Plain s) : Spells s s := by
  induction s with
  | nil => exact .nil
  | cons c s ih =>
    obtain ⟨hc, hq, hb⟩ := h c List.mem_cons_self
    exact @Spells.cons [c] s [c] s (.raw hc hq hb) (ih fun d hd => h d (List.mem_cons_of_mem c hd))

/-- The text of an element behind the others. -/
lemma elements_append {es : List Element} {inner v : Bytes} (hes : Elements es inner)
    (hv : Value v) : ∃ es', Elements es' (inner ++ ((if es ≠ [] then [ch ','] else []) ++ v)) ∧
      ∃ e, e.value = v ∧ es' = es ++ [e] := by
  obtain ⟨hvalid, hinside⟩ := hes
  by_cases hnil : es = []
  · subst hnil
    have hspace : Whitespace inner := by
      rcases hinside with ⟨-, hspace⟩ | ⟨hne, -⟩
      · exact hspace
      · exact absurd rfl hne
    have hframed : Element.Framed ⟨inner, v, []⟩ := ⟨hspace, whitespace_nil⟩
    refine ⟨[⟨inner, v, []⟩], ⟨?_, .inr ⟨by simp, ?_⟩⟩, _, rfl, rfl⟩
    · rintro e he
      rw [List.mem_singleton.1 he]
      exact ⟨hframed, hv⟩
    · simp [Element.text, commas_singleton]
  · have hinner : inner = commas (es.map Element.text) := by
      rcases hinside with ⟨hempty, -⟩ | ⟨-, hinner⟩
      · exact absurd (List.map_eq_nil_iff.1 hempty) hnil
      · exact hinner
    have hframed : Element.Framed ⟨[], v, []⟩ := ⟨whitespace_nil, whitespace_nil⟩
    refine ⟨es ++ [⟨[], v, []⟩], ⟨fun e he => ?_, .inr ⟨by simp, ?_⟩⟩, _, rfl, rfl⟩
    · rcases List.mem_append.1 he with he | he
      · exact hvalid e he
      · rw [List.mem_singleton.1 he]
        exact ⟨hframed, hv⟩
    · have hlast : ∀ l : List Bytes, l ≠ [] → commas (l ++ [v]) = commas l ++ ch ',' :: v := by
        intro l hl
        induction l with
        | nil => exact absurd rfl hl
        | cons a l ih =>
          cases l with
          | nil => rw [List.singleton_append, commas_cons a (by simp), commas_singleton,
              commas_singleton]
          | cons b l =>
            rw [List.cons_append, commas_cons a (by simp), ih (by simp), commas_cons a (by simp)]
            simp
      rw [if_pos hnil, List.map_append, List.map_singleton, hinner, List.singleton_append]
      have htext : Element.text ⟨[], v, []⟩ = v := by simp [Element.text]
      rw [htext, hlast _ (by simpa using hnil)]

/-- A value put behind the elements is read after them. -/
lemma authorCatalog_push {c : Catalog} {es : List Element} {inner v : Bytes} {e : PackageEntry}
    {entries : List PackageEntry} (hsound : c.Sound) (hes : Elements es inner)
    (hentries : entriesOf [] es = some entries) (hv : Value v) (hentry : valueEntry v = some e)
    (hroom : entries.length ≠ maxPackages) (hnew : ∀ old ∈ entries, samePackage old e = false)
    (hsize : (c.text (inner ++ ((if entries ≠ [] then [ch ','] else []) ++ v))).length ≤
      4 * 1024 * 1024)
    (hzero : 0 ∉ c.text (inner ++ ((if entries ≠ [] then [ch ','] else []) ++ v))) :
    authorCatalog (c.text (inner ++ ((if entries ≠ [] then [ch ','] else []) ++ v))) =
      some (entries ++ [e], c.rest) ∧ Different (entries ++ [e]) := by
  obtain ⟨new, hlists, hall, hdifferent, hmax⟩ :=
    (gather_eq_some List.Pairwise.nil (Nat.zero_le _)).1 hentries
  rw [List.nil_append] at hall
  subst hall
  have hempty : es = [] ↔ entries = [] := by
    rw [← List.length_eq_zero_iff, ← List.length_eq_zero_iff, hlists.length_eq]
  have hcomma : (if entries ≠ [] then [ch ','] else []) = if es ≠ [] then [ch ','] else [] :=
    if_congr (not_congr hempty.symm) rfl rfl
  rw [hcomma] at hsize hzero ⊢
  obtain ⟨es', hes', e', hvalue, rfl⟩ := elements_append hes hv
  have hdifferent' : Different (entries ++ [e]) := hdifferent.concat hnew
  have hentries' : entriesOf [] (es ++ [e']) = some (entries ++ [e]) := by
    refine (gather_eq_some List.Pairwise.nil (Nat.zero_le _)).2
      ⟨_, ?_, (List.nil_append _).symm, hdifferent', ?_⟩
    · exact List.rel_append hlists (.cons (hvalue ▸ hentry) .nil)
    · rw [List.length_append, List.length_singleton]
      omega
  rw [authorCatalog_text hsound hes' hsize hzero, hentries']
  exact ⟨rfl, hdifferent'⟩

/-- What goes into the new document, where there is one. -/
lemma addedCatalog_eq_some {text hash updated : Bytes} {info : PackageInfo}
    (h : addedCatalog text info hash = some updated) : ∃ entries arrayEnd name version arch,
      authorCatalog text = some (entries, arrayEnd) ∧ entries.length ≠ maxPackages ∧
      knownArch info.arch = true ∧ (semverParse info.version).isSome = true ∧
      (∀ old ∈ entries, samePackage old (addedEntry info hash) = false) ∧
      authorJsonString 800 info.name = some name ∧ authorJsonString 400 info.version = some version ∧
      authorJsonString 120 info.arch = some arch ∧
      updated = text.take (text.length - arrayEnd.length) ++
        packageText (entries ≠ []) name version arch (ch '"' :: addedItem hash ++ [ch '"']) ++
          arrayEnd ∧
      (packageText (entries ≠ []) name version arch
        (ch '"' :: addedItem hash ++ [ch '"'])).length < 1600 ∧
      text.length + (packageText (entries ≠ []) name version arch
        (ch '"' :: addedItem hash ++ [ch '"'])).length ≤ 4 * 1024 * 1024 := by
  unfold addedCatalog at h
  cases hread : authorCatalog text with
  | none =>
    rw [hread] at h
    exact absurd h (by simp)
  | some r =>
    obtain ⟨entries, arrayEnd⟩ := r
    simp only [hread] at h
    obtain ⟨hchecks, h⟩ := Option.ite_none_left_eq_some.1 h
    simp only [not_or, Bool.not_eq_false, Bool.not_eq_true, List.any_eq_false] at hchecks
    obtain ⟨hroom, -, harch, hversion, hnew⟩ := hchecks
    split at h
    next name version arch hname hver har =>
      obtain ⟨hfits, h⟩ := Option.ite_none_left_eq_some.1 h
      rw [not_or, Nat.not_le, Nat.not_lt] at hfits
      exact ⟨entries, arrayEnd, name, version, arch, rfl, hroom, harch, hversion, hnew, hname, hver,
        har, (Option.some.inj h).symm, hfits.1, hfits.2⟩
    all_goals exact absurd h (by simp)

lemma zero_notMem_objectText {e : PackageEntry} {name version arch url : Bytes}
    (h : Spelled e name version arch url) : 0 ∉ objectText (packageFields name version arch url) := by
  have hliterals : 0 ∉ str "\x7b\"name\":" ∧ 0 ∉ str ",\"version\":" ∧ 0 ∉ str ",\"arch\":" ∧
      0 ∉ str ",\"url\":" ∧ 0 ∉ str "\x7d" := by decide
  obtain ⟨hl1, hl2, hl3, hl4, hl5⟩ := hliterals
  have htext := packageText_eq false name version arch url
  rw [if_neg (by decide), List.nil_append] at htext
  rw [← htext, packageText, if_neg (by decide), List.nil_append]
  simp only [List.mem_append, not_or]
  exact ⟨⟨⟨⟨⟨⟨⟨⟨hl1, (StringIs.isString h.name).zero_notMem⟩, hl2⟩,
    (StringIs.isString h.version).zero_notMem⟩, hl3⟩, (StringIs.isString h.arch).zero_notMem⟩, hl4⟩,
    (StringIs.isString h.url).zero_notMem⟩, hl5⟩

/-- What the reader takes has no NUL, and is not too long. -/
lemma bounds_of_authorCatalog {text : Bytes} {r : List PackageEntry × Bytes}
    (h : authorCatalog text = some r) : 0 ∉ text ∧ text.length ≤ 4 * 1024 * 1024 := by
  have hquery := (Option.ite_none_right_eq_some.1 h).1
  rw [queryCatalogDocument, documentSupported, indexSizeValid] at hquery
  simp only [Bool.and_eq_true, decide_eq_true_eq] at hquery
  obtain ⟨⟨⟨⟨⟨-, hsize⟩, hzero⟩, -⟩, -⟩, -⟩ := hquery
  exact ⟨hzero, hsize⟩

/-- **The new document** is the frame of the old one, with one more element in it. -/
lemma authorCatalog_added {text metadata hash updated : Bytes} {info : PackageInfo}
    (hinspect : archiveInspect metadata = some info) (hhash : hash.length = 32)
    (h : addedCatalog text info hash = some updated) :
    ∃ (c : Catalog) (inner element : Bytes) (entries : List PackageEntry), text = c.text inner ∧
      updated = c.text (inner ++ element) ∧ authorCatalog text = some (entries, c.rest) ∧
      authorCatalog updated = some (entries ++ [addedEntry info hash], c.rest) ∧
      Different (entries ++ [addedEntry info hash]) := by
  obtain ⟨entries, arrayEnd, name, version, arch, hread, hroom, harch, hversion, hnew, hname, hver,
    har, hupdated, hsmall, hsize⟩ := addedCatalog_eq_some h
  obtain ⟨c, es, inner, hsound, hes, rfl, rfl, hentries⟩ := exists_catalog hread
  -- the new element
  obtain ⟨hplain, hzero⟩ := plain_addedItem hash
  have hlength : (addedItem hash).length = 77 := by
    rw [addedItem, List.length_append, List.length_append, length_bin2hex, hhash]
    decide
  have hitem : addedItem hash ≠ [] ∧ 0 ∉ addedItem hash ∧ (addedItem hash).length < pathSize := by
    refine ⟨fun hnil => ?_, hzero, hlength ▸ by decide⟩
    rw [hnil] at hlength
    exact absurd hlength (by decide)
  have hentry : (addedEntry info hash).Sound :=
    sound_of_archiveInspect hinspect harch hversion hitem
  have hspelled : Spelled (addedEntry info hash) name version arch
      (ch '"' :: addedItem hash ++ [ch '"']) :=
    ⟨stringIs_authorJsonString hentry.name.2.1 hname,
      stringIs_authorJsonString hentry.version.2.1 hver,
      stringIs_authorJsonString hentry.arch.2.1 har, _, spells_of_plain hplain, rfl⟩
  have hvalue := value_objectText hspelled.fields
  have hnozero := zero_notMem_objectText hspelled
  rw [packageText_eq] at hsmall hsize hupdated
  have hobject := valueEntry_package hspelled hentry (by
    have hlimit : 1600 ≤ sizeMax := by decide
    rw [List.length_append] at hsmall
    omega)
  generalize objectText (packageFields name version arch
    (ch '"' :: addedItem hash ++ [ch '"'])) = object at hsmall hsize hupdated hvalue hnozero hobject
  -- the text around it
  have hcut : (c.text inner).take ((c.text inner).length - c.rest.length) = c.head ++ inner := by
    rw [Catalog.text, ← List.append_assoc]
    refine List.take_left' ?_
    simp only [List.length_append]
    omega
  simp only [decide_eq_true_eq] at hupdated hsize
  rw [hcut] at hupdated
  have htext : updated = c.text (inner ++ ((if entries ≠ [] then [ch ','] else []) ++ object)) := by
    rw [hupdated, Catalog.text]
    simp only [List.append_assoc]
  have hsize' : updated.length ≤ 4 * 1024 * 1024 := by
    rw [hupdated]
    simp only [Catalog.text, List.length_append] at hsize ⊢
    omega
  have hzero' : 0 ∉ updated := by
    have hold := (bounds_of_authorCatalog hread).1
    have hcomma : 0 ∉ if entries ≠ [] then [ch ','] else [] := by
      split_ifs <;> decide
    rw [hupdated]
    simp only [Catalog.text, List.mem_append, not_or] at hold ⊢
    exact ⟨⟨⟨hold.1, hold.2.1⟩, hcomma, hnozero⟩, hold.2.2⟩
  obtain ⟨hresult, hdifferent⟩ := authorCatalog_push hsound hes hentries hvalue hobject hroom hnew
    (htext ▸ hsize') (htext ▸ hzero')
  exact ⟨c, inner, _, entries, rfl, htext, hread, htext ▸ hresult, hdifferent⟩

/-- **A package that is added comes last in the catalog**, and all that was there stays as it was:
the text in front of the new element and the text behind it are the old text. -/
theorem addedCatalog_extends {text metadata hash updated : Bytes} {info : PackageInfo}
    (hinspect : archiveInspect metadata = some info) (hhash : hash.length = 32)
    (h : addedCatalog text info hash = some updated) :
    ∃ entries, authorReadCatalog text = some entries ∧
      authorReadCatalog updated = some (entries ++ [addedEntry info hash]) ∧
      Different (entries ++ [addedEntry info hash]) ∧
      ∃ a element b, text = a ++ b ∧ updated = a ++ element ++ b := by
  obtain ⟨c, inner, element, entries, rfl, rfl, hread, hread', hdifferent⟩ :=
    authorCatalog_added hinspect hhash h
  refine ⟨entries, ?_, ?_, hdifferent, c.head ++ inner, element, c.rest, ?_, ?_⟩
  · rw [authorReadCatalog_eq, hread]
    rfl
  · rw [authorReadCatalog_eq, hread']
    rfl
  · rw [Catalog.text, List.append_assoc]
  · simp only [Catalog.text, List.append_assoc]

/-- The hash of an archive, and its metadata. -/
def newHash : Bytes := List.replicate 32 0xab

def newMetadata : Bytes := str "name=tool\nversion=1.0.0\narch=x64\n"

def newInfo : PackageInfo := ⟨str "tool", str "1.0.0", str "x64"⟩

/-- The new entry for it, behind the one of the sample. -/
def newElement : Bytes :=
  str ",\x7b\"name\":\"tool\",\"version\":\"1.0.0\",\"arch\":\"x64\"," ++
    str "\"url\":\"packages/" ++ bin2hex newHash ++ str ".zip\"\x7d"

/-- The sample catalog with the new entry in front of the bracket. -/
def newCatalog : Bytes := sampleCatalog.take (sampleCatalog.length - 2) ++ newElement ++ str "]\x7d"

theorem addedCatalog_extends_sample :
    ∃ entries, authorReadCatalog sampleCatalog = some entries ∧
      authorReadCatalog newCatalog = some (entries ++ [addedEntry newInfo newHash]) ∧
      Different (entries ++ [addedEntry newInfo newHash]) ∧
      ∃ a element b, sampleCatalog = a ++ b ∧ newCatalog = a ++ element ++ b :=
  @addedCatalog_extends sampleCatalog newMetadata newHash newCatalog newInfo (by decide +kernel)
    (by decide) (by decide +kernel)

end Wpm.Repository
