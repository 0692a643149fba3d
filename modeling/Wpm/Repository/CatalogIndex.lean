import Wpm.Lib.Search
import Wpm.Repository.Candidate
import Wpm.Repository.CatalogWriters

/-!
The rebuilding of a catalog from the archives that are there, `wpm_repo_index`.

The archives come in the order of the search, an order that the file system is free to choose, and
`qsort` may put entries that are equal for its comparator in any order. The document that is written
depends on neither (`indexedCatalog_perm`), since `author_index_order` tells any two packages apart.
It differs from the one before only in the array of `packages`, the readers take it, and a second run
finds nothing to change (`indexedCatalog_rebuilds`).
-/

namespace Wpm.Repository

open Wpm.Lib.CString Wpm.Lib.Json Wpm.Lib.Gather Wpm.Lib.Search Wpm.JsonInput Wpm.Lib.SemVer
open Wpm.Archive (pathSize archiveInspect joinPath)
open Wpm.Operation (PackageInfo)
open Std

/-! ### The order of the catalog -/

/-- `author_index_order`. -/
def authorIndexOrder (a b : PackageEntry) : Ordering :=
  (stricmp a.name b.name).then <| (stricmp a.arch b.arch).then <|
    ((semverCompare a.version b.version).getD .eq).swap.then <|
      (compare a.version b.version).then (compare a.url b.url)

/-- The order of entries whose versions are versions. -/
def indexRank : PackageEntry → PackageEntry → Ordering :=
  compareLex (compareOn fun e => fold e.name) <| compareLex (compareOn fun e => fold e.arch) <|
    compareLex (fun a b => compareOn (fun e : PackageEntry => versionOf e.version) b a) <|
      compareLex (compareOn PackageEntry.version) (compareOn PackageEntry.url)

instance : TransCmp indexRank :=
  inferInstanceAs (TransCmp (compareLex _ (compareLex _ (compareLex _ (compareLex _ _)))))

lemma authorIndexOrder_eq {a b : PackageEntry} (ha : (semverParse a.version).isSome = true)
    (hb : (semverParse b.version).isSome = true) : authorIndexOrder a b = indexRank a b := by
  obtain ⟨va, hva⟩ := Option.isSome_iff_exists.1 ha
  obtain ⟨vb, hvb⟩ := Option.isSome_iff_exists.1 hb
  have hcompare : ((semverCompare a.version b.version).getD .eq).swap =
      compareOn (fun e : PackageEntry => versionOf e.version) b a := by
    rw [semverCompare_eq, compareOn, versionOf, versionOf, hva, hvb]
    exact (@OrientedCmp.eq_swap _ precedence _ vb.version va.version).symm
  rw [authorIndexOrder, hcompare]
  rfl

/-- The comparator orders versioned entries. -/
lemma consistent_authorIndexOrder {l : List PackageEntry}
    (h : ∀ e ∈ l, (semverParse e.version).isSome = true) : Consistent authorIndexOrder l where
  swap a ha b hb := by
    rw [authorIndexOrder_eq (h a ha) (h b hb), authorIndexOrder_eq (h b hb) (h a ha)]
    exact cmp_swap indexRank a b
  trans a ha b hb c hc hab hbc := by
    rw [Le, authorIndexOrder_eq (h a ha) (h b hb)] at hab
    rw [Le, authorIndexOrder_eq (h b hb) (h c hc)] at hbc
    rw [Le, authorIndexOrder_eq (h a ha) (h c hc)]
    exact TransCmp.isLE_trans hab hbc

/-- Entries that are equal in the order are of the same package. -/
lemma samePackage_of_eq {a b : PackageEntry} (h : authorIndexOrder a b = .eq) :
    samePackage a b = true := by
  simp only [authorIndexOrder, Ordering.then_eq_eq, stricmp_eq_iff, LawfulEqOrd.compare_eq_iff_eq]
    at h
  obtain ⟨hname, harch, -, hversion, -⟩ := h
  rw [samePackage, hname, harch, hversion]
  simp

lemma samePackage_comm (a b : PackageEntry) : samePackage a b = samePackage b a := by
  rw [Bool.eq_iff_iff]
  simp only [samePackage, Bool.and_eq_true, decide_eq_true_eq]
  constructor
  · rintro ⟨⟨hname, harch⟩, hversion⟩
    exact ⟨⟨hname.symm, harch.symm⟩, hversion.symm⟩
  · rintro ⟨⟨hname, harch⟩, hversion⟩
    exact ⟨⟨hname.symm, harch.symm⟩, hversion.symm⟩

/-- **Sorting different packages** gives one list only. -/
lemma qsort_eq {qsort qsort' : (PackageEntry → PackageEntry → Ordering) → List PackageEntry →
    List PackageEntry} (hqsort : IsQsort qsort) (hqsort' : IsQsort qsort') {l l' : List PackageEntry}
    (hperm : l.Perm l') (hdifferent : Different l)
    (hversioned : ∀ e ∈ l, (semverParse e.version).isSome = true) :
    qsort authorIndexOrder l = qsort' authorIndexOrder l' := by
  have hconsistent := consistent_authorIndexOrder hversioned
  obtain ⟨hp, hsorted⟩ := hqsort _ l hconsistent
  obtain ⟨hp', hsorted'⟩ := hqsort' _ l' (hconsistent.perm hperm)
  refine eq_of_sorted_perm (hconsistent.perm hp.symm) (fun a ha b hb hab => ?_)
    (hp.trans (hperm.trans hp'.symm)) hsorted hsorted'
  exact hdifferent.eq_of_clash samePackage_comm (hp.mem_iff.1 ha) (hp.mem_iff.1 hb)
    (samePackage_of_eq hab)

/-! ### The archives -/

/-- A file that the search finds: its name, of which the system gives at most 259 bytes, whether it
is an ordinary file, whether it can be opened, whether `wpm_archive_validate_readonly` accepts it,
and the metadata in it. -/
structure IndexedFile where
  file : Bytes
  ordinary : Bool
  opens : Bool
  valid : Bool
  metadata : Option Bytes
  short : file.length < 260

/-- The characters that the name of an archive may have. -/
def isArchiveChar (c : UInt8) : Bool := isAlnum c || decide (c ∈ str "._+-")

/-- The entry for a file in the directory `packages`, when all of the checks hold. -/
def indexedEntry (packages : Bytes) (f : IndexedFile) : Option PackageEntry :=
  if f.ordinary = false ∨ f.file.all isArchiveChar = false ∨ joinPath packages f.file = none ∨
      f.opens = false ∨ f.valid = false then none
  else (f.metadata.bind archiveInspect).bind fun info =>
    if (semverParse info.version).isSome = true ∧ knownArch info.arch = true then
      some ⟨info.name, info.version, info.arch, str "packages/" ++ f.file, 0, 0⟩
    else none

/-- The loop over the files. -/
def inventory (packages : Bytes) (found : List IndexedFile) : Option (List PackageEntry) :=
  gather (indexedEntry packages) samePackage maxPackages [] found

/-- The loop that writes the entries, none when the buffer is full. -/
def putEntries (capacity : ℕ) : Bytes → Bool → List PackageEntry → Option Bytes
  | updated, _, [] => some updated
  | updated, behind, e :: entries =>
    match authorJsonString 1024 e.name, authorJsonString 512 e.version,
      authorJsonString 256 e.arch, authorJsonString 2048 e.url with
    | some name, some version, some arch, some url =>
      if capacity - updated.length ≤ (packageText behind name version arch url).length then none
      else putEntries capacity (updated ++ packageText behind name version arch url) true entries
    | _, _, _, _ => none

def indexCapacity : ℕ := 4 * 1024 * 1024 + 1

/-- The text up to the first entry, the entries, and the text behind the last one. -/
def indexedText (opening arrayEnd : Bytes) (entries : List PackageEntry) : Option Bytes :=
  if indexCapacity ≤ opening.length + arrayEnd.length then none
  else (putEntries indexCapacity opening false entries).bind fun updated =>
    if indexCapacity ≤ updated.length + arrayEnd.length then none else some (updated ++ arrayEnd)

/-- The document that `wpm_repo_index` makes of the one that it reads. The search has found the
files, and `whole` says that it ended as there were no more. -/
def indexedCatalog (qsort : (PackageEntry → PackageEntry → Ordering) → List PackageEntry →
    List PackageEntry) (text packages : Bytes) (found : List IndexedFile) (whole : Bool) :
    Option Bytes :=
  (authorCatalog text).bind fun catalog =>
    if whole = false then none
    else ((inventory packages found).map (qsort authorIndexOrder)).bind fun entries =>
      (packagesArray text).bind fun arrayStart =>
        indexedText (text.take (text.length - arrayStart.length)) catalog.2 entries

lemma isArchiveChar_ne_zero {c : UInt8} (h : isArchiveChar c = true) : c ≠ 0 := by
  rintro rfl
  exact absurd h (by decide)

/-- **The entries are sound.** -/
lemma indexedEntry_sound {packages : Bytes} {f : IndexedFile} {e : PackageEntry}
    (h : indexedEntry packages f = some e) : e.Sound := by
  obtain ⟨hchecks, h⟩ := Option.ite_none_left_eq_some.1 h
  obtain ⟨info, hinfo, h⟩ := Option.bind_eq_some_iff.1 h
  obtain ⟨metadata, -, hinspect⟩ := Option.bind_eq_some_iff.1 hinfo
  obtain ⟨⟨hversion, harch⟩, h⟩ := Option.ite_none_right_eq_some.1 h
  obtain rfl := Option.some.inj h
  simp only [not_or, Bool.not_eq_false] at hchecks
  have hfront : (0 : UInt8) ∉ str "packages/" ∧ (str "packages/").length = 9 := by decide
  refine sound_of_archiveInspect hinspect harch hversion ⟨fun hnil => ?_, ?_, ?_⟩
  · rw [(List.append_eq_nil_iff.1 hnil).1] at hfront
    exact absurd hfront.2 (by decide)
  · have hname := List.all_eq_true.1 hchecks.2.1
    rw [List.mem_append, not_or]
    exact ⟨hfront.1, fun hmem => isArchiveChar_ne_zero (hname 0 hmem) rfl⟩
  · have hshort := f.short
    have hpath : 300 < pathSize := by decide
    rw [List.length_append, hfront.2]
    omega

/-- **The entry is that of the file**: an ordinary archive that is valid, with the identity that its
metadata give and the file's name for a URL. -/
structure IndexedFile.Listed (f : IndexedFile) (e : PackageEntry) : Prop where
  ordinary : f.ordinary = true
  named : ∀ c ∈ f.file, isArchiveChar c = true
  opens : f.opens = true
  valid : f.valid = true
  identity : ∃ metadata info, f.metadata = some metadata ∧ archiveInspect metadata = some info ∧
    e.name = info.name ∧ e.version = info.version ∧ e.arch = info.arch
  url : e.url = str "packages/" ++ f.file

lemma listed_of_indexedEntry {packages : Bytes} {f : IndexedFile} {e : PackageEntry}
    (h : indexedEntry packages f = some e) : f.Listed e := by
  obtain ⟨hchecks, h⟩ := Option.ite_none_left_eq_some.1 h
  obtain ⟨info, hinfo, h⟩ := Option.bind_eq_some_iff.1 h
  obtain ⟨metadata, hmetadata, hinspect⟩ := Option.bind_eq_some_iff.1 hinfo
  obtain ⟨-, h⟩ := Option.ite_none_right_eq_some.1 h
  obtain rfl := Option.some.inj h
  simp only [not_or, Bool.not_eq_false] at hchecks
  obtain ⟨hordinary, hnamed, -, hopens, hvalid⟩ := hchecks
  exact ⟨hordinary, List.all_eq_true.1 hnamed, hopens, hvalid,
    ⟨metadata, info, hmetadata, hinspect, rfl, rfl, rfl⟩, rfl⟩

/-- The entries that the loop finds: different ones, one for each of the files. -/
lemma inventory_eq_some {packages : Bytes} {found : List IndexedFile} {entries : List PackageEntry}
    (h : inventory packages found = some entries) :
    List.Forall₂ (fun f e => indexedEntry packages f = some e) found entries ∧ Different entries ∧
      entries.length ≤ maxPackages ∧ ∀ e ∈ entries, e.Sound := by
  obtain ⟨new, hread, rfl, hdifferent, hmax⟩ :=
    (gather_eq_some List.Pairwise.nil (Nat.zero_le _)).1 h
  refine ⟨hread, hdifferent, hmax, fun e he => ?_⟩
  obtain ⟨f, -, hf⟩ := exists_source hread he
  exact indexedEntry_sound hf

/-- **The document does not depend on the order of the search**, nor on how `qsort` sorts: where the
files come in another order, another sort gives the same document. -/
theorem indexedCatalog_perm {qsort qsort' : (PackageEntry → PackageEntry → Ordering) →
    List PackageEntry → List PackageEntry} (hqsort : IsQsort qsort) (hqsort' : IsQsort qsort')
    {found found' : List IndexedFile} (hperm : found.Perm found') (text packages : Bytes)
    (whole : Bool) :
    indexedCatalog qsort text packages found whole =
      indexedCatalog qsort' text packages found' whole := by
  have hsorted : (inventory packages found).map (qsort authorIndexOrder) =
      (inventory packages found').map (qsort' authorIndexOrder) := by
    cases hentries : inventory packages found with
    | none =>
      cases hentries' : inventory packages found' with
      | none => rfl
      | some entries' =>
        obtain ⟨entries, hsome, -⟩ := gather_perm samePackage_comm hperm.symm hentries'
        rw [inventory, hsome] at hentries
        exact absurd hentries (by simp)
    | some entries =>
      obtain ⟨entries', hentries', hp⟩ := gather_perm samePackage_comm hperm hentries
      obtain ⟨-, hdifferent, -, hsound⟩ := inventory_eq_some hentries
      rw [inventory, hentries', Option.map_some, Option.map_some,
        qsort_eq hqsort hqsort' hp hdifferent fun e he => (hsound e he).versioned]
  rw [indexedCatalog, hsorted]
  rfl

/-- Two archives, the later one in the order of the catalog first. -/
def toolArchive : IndexedFile :=
  ⟨str "t.zip", true, true, true, some (str "name=tool\nversion=1.0.0\narch=x64\n"), by decide⟩

def libraryArchive : IndexedFile :=
  ⟨str "l.zip", true, true, true, some (str "name=library\nversion=2.0.0\narch=any\n"), by decide⟩

theorem indexedCatalog_perm_sample :
    indexedCatalog sortBy sampleCatalog (str "C:\\r\\packages") [toolArchive, libraryArchive] true =
      indexedCatalog sortBy sampleCatalog (str "C:\\r\\packages") [libraryArchive, toolArchive]
        true :=
  indexedCatalog_perm isQsort_sortBy isQsort_sortBy (List.Perm.swap libraryArchive toolArchive [])
    sampleCatalog (str "C:\\r\\packages") true

/-! ### What is written -/

/-- The text is that of an element that is read as the entry. -/
def IsEntryText (e : PackageEntry) (v : Bytes) : Prop :=
  valueEntry v = some e ∧ Value v ∧ 0 ∉ v

lemma commas_cons_flatMap (a : Bytes) (l : List Bytes) :
    commas (a :: l) = a ++ l.flatMap fun b => ch ',' :: b := by
  induction l generalizing a with
  | nil => rw [commas_singleton, List.flatMap_nil, List.append_nil]
  | cons b l ih => rw [commas_cons a (by simp), ih, List.flatMap_cons, List.cons_append]

lemma zero_notMem_commas {l : List Bytes} (h : ∀ v ∈ l, 0 ∉ v) : 0 ∉ commas l := by
  induction l with
  | nil => exact List.not_mem_nil
  | cons v l ih =>
    have hv := h v List.mem_cons_self
    cases l with
    | nil => rwa [commas_singleton]
    | cons w l =>
      rw [commas_cons v (by simp), List.mem_append, List.mem_cons, not_or, not_or]
      exact ⟨hv, by decide, ih fun x hx => h x (List.mem_cons_of_mem v hx)⟩

/-- Texts behind a comma each, but the first one where none is in front of it. -/
def joined (behind : Bool) (texts : List Bytes) : Bytes :=
  if behind then texts.flatMap fun v => ch ',' :: v else commas texts

lemma joined_cons (behind : Bool) (v : Bytes) (texts : List Bytes) :
    joined behind (v :: texts) = (if behind then [ch ','] else []) ++ v ++ joined true texts := by
  cases behind with
  | true => rw [joined, if_pos rfl, joined, if_pos rfl, if_pos rfl, List.flatMap_cons]; rfl
  | false => rw [joined, if_neg (by decide), joined, if_pos rfl, if_neg (by decide),
      commas_cons_flatMap, List.nil_append]

/-- **The loop puts out** the texts of the entries, with commas between them. -/
lemma putEntries_eq_some {capacity : ℕ} (hcapacity : capacity ≤ sizeMax) :
    ∀ {entries : List PackageEntry} {updated out : Bytes} {behind : Bool},
    (∀ e ∈ entries, e.Sound) → putEntries capacity updated behind entries = some out →
    ∃ texts, List.Forall₂ IsEntryText entries texts ∧ out = updated ++ joined behind texts
  | [], updated, out, behind, _, h => by
    have hjoined : joined behind [] = [] := by cases behind <;> rfl
    exact ⟨[], .nil, by rw [hjoined, List.append_nil, ← Option.some.inj h]⟩
  | e :: entries, updated, out, behind, hsound, h => by
    have he := hsound e List.mem_cons_self
    rw [putEntries] at h
    split at h
    next name version arch url hname hversion harch hurl =>
      obtain ⟨hroom, h⟩ := Option.ite_none_left_eq_some.1 h
      have hspelled : Spelled e name version arch url :=
        ⟨stringIs_authorJsonString he.name.2.1 hname,
          stringIs_authorJsonString he.version.2.1 hversion,
          stringIs_authorJsonString he.arch.2.1 harch, stringIs_authorJsonString he.url.2.1 hurl⟩
      obtain ⟨texts, htexts, rfl⟩ := putEntries_eq_some hcapacity
        (fun x hx => hsound x (List.mem_cons_of_mem e hx)) h
      rw [packageText_eq] at hroom ⊢
      refine ⟨_, .cons ⟨valueEntry_package hspelled he ?_, value_objectText hspelled.fields,
        zero_notMem_objectText hspelled⟩ htexts, ?_⟩
      · rw [List.length_append] at hroom
        omega
      · rw [joined_cons]
        simp only [List.append_assoc]
    next => exact absurd h (by simp)

/-- The texts of entries as the elements of an array. -/
lemma elements_of_texts {entries : List PackageEntry} {texts : List Bytes}
    (h : List.Forall₂ IsEntryText entries texts) :
    Elements (texts.map fun v => ⟨[], v, []⟩) (commas texts) ∧ 0 ∉ commas texts ∧
      List.Forall₂ (fun (e : Element) x => valueEntry e.value = some x)
        (texts.map fun v => ⟨[], v, []⟩) entries := by
  have htext : (texts.map fun v => (⟨[], v, []⟩ : Element)).map Element.text = texts := by
    rw [List.map_map]
    exact (List.map_congr_left fun v _ => by simp [Element.text]).trans (List.map_id texts)
  refine ⟨⟨fun e he => ?_, ?_⟩, ?_, ?_⟩
  · obtain ⟨v, hv, rfl⟩ := List.mem_map.1 he
    obtain ⟨x, -, hx⟩ := exists_source h hv
    exact ⟨⟨whitespace_nil, whitespace_nil⟩, hx.2.1⟩
  · rw [htext]
    cases texts with
    | nil => exact .inl ⟨rfl, whitespace_nil⟩
    | cons v texts => exact .inr ⟨by simp, rfl⟩
  · refine zero_notMem_commas fun v hv => ?_
    obtain ⟨x, -, hx⟩ := exists_source h hv
    exact hx.2.2
  · rw [List.forall₂_map_left_iff]
    exact h.flip.imp fun v e hv => hv.1

/-- What stands in front of the first element. -/
lemma Catalog.Sound.opening {c : Catalog} (h : c.Sound) {es : List Element} {inner : Bytes}
    (hes : Elements es inner) (hsize : (c.text inner).length ≤ 4 * 1024 * 1024) :
    ∃ start, Repository.packagesArray (c.text inner) = some start ∧
      (c.text inner).take ((c.text inner).length - start.length) = c.head := by
  refine ⟨_, h.packagesArray hes (hsize.trans (by decide)), List.take_left' ?_⟩
  simp only [Catalog.text, List.length_append]
  omega

/-- **The new document** is the frame of the old one, with the entries of the archives in it. -/
lemma authorCatalog_indexed {qsort : (PackageEntry → PackageEntry → Ordering) →
    List PackageEntry → List PackageEntry} (hqsort : IsQsort qsort) {text packages updated : Bytes}
    {found : List IndexedFile} {whole : Bool}
    (h : indexedCatalog qsort text packages found whole = some updated) :
    ∃ (c : Catalog) (inner inner' : Bytes) (entries listed : List PackageEntry),
      c.Sound ∧ text = c.text inner ∧ updated = c.text inner' ∧
      inventory packages found = some entries ∧ listed.Perm entries ∧
      listed.Pairwise (Le authorIndexOrder) ∧ authorCatalog updated = some (listed, c.rest) ∧
      indexedCatalog qsort updated packages found whole = some updated := by
  obtain ⟨⟨old, arrayEnd⟩, hread, h⟩ := Option.bind_eq_some_iff.1 h
  obtain ⟨hwhole, h⟩ := Option.ite_none_left_eq_some.1 h
  obtain ⟨listed, hlisted, h⟩ := Option.bind_eq_some_iff.1 h
  obtain ⟨arrayStart, hstart, h⟩ := Option.bind_eq_some_iff.1 h
  obtain ⟨entries, hentries, rfl⟩ := Option.map_eq_some_iff.1 hlisted
  obtain ⟨-, hdifferent, hmax, hsound⟩ := inventory_eq_some hentries
  obtain ⟨hperm, hsorted⟩ := hqsort _ entries
    (consistent_authorIndexOrder fun e he => (hsound e he).versioned)
  generalize hlist : qsort authorIndexOrder entries = listed at h hperm hsorted
  -- the frame of the old catalog
  obtain ⟨c, es, inner, hframe, hes, rfl, rfl, -⟩ := exists_catalog hread
  obtain ⟨hold, hsize⟩ := bounds_of_authorCatalog hread
  obtain ⟨start, hstart', htake⟩ := hframe.opening hes hsize
  obtain rfl : start = arrayStart := Option.some.inj (hstart'.symm.trans hstart)
  rw [htake] at h
  -- what is put between the brackets
  have hagain := h
  obtain ⟨-, h⟩ := Option.ite_none_left_eq_some.1 h
  obtain ⟨out, hput, h⟩ := Option.bind_eq_some_iff.1 h
  obtain ⟨hfits, h⟩ := Option.ite_none_left_eq_some.1 h
  obtain ⟨texts, htexts, rfl⟩ := putEntries_eq_some (by decide)
    (fun e he => hsound e (hperm.mem_iff.1 he)) hput
  obtain ⟨hes', hzero', hvalues⟩ := elements_of_texts htexts
  have htext : updated = c.text (commas texts) := by
    rw [← Option.some.inj h, Catalog.text, List.append_assoc]
    rfl
  subst htext
  have hsize' : (c.text (commas texts)).length ≤ 4 * 1024 * 1024 := by
    rw [← Option.some.inj h, List.length_append]
    exact Nat.lt_succ_iff.1 (Nat.lt_of_not_le hfits)
  have hnew : 0 ∉ c.text (commas texts) := by
    simp only [Catalog.text, List.mem_append, not_or] at hold ⊢
    exact ⟨hold.1, hzero', hold.2.2⟩
  have hentries' : entriesOf [] (texts.map fun v => ⟨[], v, []⟩) = some listed := by
    refine (gather_eq_some List.Pairwise.nil (Nat.zero_le _)).2
      ⟨listed, hvalues, rfl, hdifferent.perm samePackage_comm hperm.symm, ?_⟩
    rwa [hperm.length_eq]
  have hcatalog := authorCatalog_text hframe hes' hsize' hnew
  rw [hentries', Option.map_some] at hcatalog
  refine ⟨c, inner, _, entries, listed, hframe, rfl, rfl, hentries, hperm, hsorted, hcatalog, ?_⟩
  obtain ⟨start', hstart'', htake'⟩ := hframe.opening hes' hsize'
  rw [indexedCatalog, hcatalog, Option.bind_some, if_neg hwhole, hentries, Option.map_some,
    Option.bind_some, hstart'', Option.bind_some, htake', hlist]
  exact hagain

/-- The sample with the two archives in the place of its entry. -/
def rebuiltCatalog : Bytes :=
  str "\x7b\"version\": 1, \"packages\": [\x7b\"name\":\"library\",\"version\":\"2.0.0\"," ++
    str "\"arch\":\"any\",\"url\":\"packages/l.zip\"\x7d,\x7b\"name\":\"tool\"," ++
    str "\"version\":\"1.0.0\",\"arch\":\"x64\",\"url\":\"packages/t.zip\"\x7d]\x7d"

end Wpm.Repository
