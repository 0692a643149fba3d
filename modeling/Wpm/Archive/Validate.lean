import Wpm.Lib.Search
import Wpm.Signing
import Wpm.Archive.Zip

/-!
Read-only validation of an archive.

`archiveValidateHandle` is `archive_validate_handle`: it reads index and signature out of the
archive, checks the signature, runs over the rows of the index (`validateRow`: each names an entry
of its size and digest), and then over all entries (`validateEntry`: each has a safe name, a
readable content and, in a signed archive, a row). Both runs end in a sort and a scan for repeated
names. A failure carries the error lines that are printed.
-/

namespace Wpm.Archive

open Wpm.Lib.CString Wpm.Lib.Check Wpm.Lib.Search Wpm.JsonInput Wpm.Signing

def indexName : Bytes := str ".wpm/index.csv"

def signatureName : Bytes := str ".wpm/signature.json"

/-- The largest index, the largest signature, and the limits on rows and on entries. -/
def indexMaximum : ℕ := 4 * 1024 * 1024

def signatureMaximum : ℕ := 16384

def rowLimit : ℕ := 4096

def entryLimit : ℕ := 8192

/-! ### Lines of the index -/

def isLineBreak (c : UInt8) : Bool := c = 13 ∨ c = 10

/-- The lines that the cursor in `archive_validate_handle` stops at: each ends at the first line
break, and the breaks after it are skipped. -/
def archiveLinesFrom : ℕ → Bytes → List Bytes
  | 0, _ => []
  | fuel + 1, text =>
    if text = [] then []
    else
      text.takeWhile (!isLineBreak ·) ::
        archiveLinesFrom fuel ((text.dropWhile (!isLineBreak ·)).dropWhile isLineBreak)

def archiveLines (text : Bytes) : List Bytes := archiveLinesFrom text.length text

/-! ### The validator -/

variable (S : Sodium) (Z : ZipLib) (T : TrustStore)

/-- The `done:` message of `archive_validate_handle`. -/
def invalidArchive (failure : String) (failedPath : Bytes) : List Bytes :=
  [str "Error: " ++ str failure ++ (if failedPath = [] then [] else str " for ") ++ failedPath ++
    str " (read-only validation).\n"]

/-- `strcpy_s` into `failed_path`: a name that does not fit leaves it empty. -/
def failedPathOf (name : Bytes) : Bytes := if name.length < pathSize then name else []

/-- The names collected in a loop, and `failed_path`. -/
structure Progress where
  names : List Bytes
  failedPath : Bytes

/-- One line of the index: a blank line or a header is skipped, and a row has to name an entry
with its size and its digest. -/
def validateRow (archive : List ZipEntry) (s : Progress) (line : Bytes) :
    Except (List Bytes) Progress :=
  let line := trimLine line
  if line = [] ∨ stricmp line indexHeader = .eq then .ok s
  else do
    let invalid := invalidArchive "invalid package index entry" s.failedPath
    let row ← orElse (splitRow line) invalid
    require (isSafeArchivePath row.filename = true) invalid
    require (isDigit (cur row.sizeText) = true) invalid
    require (row.expectedHash.length = blake2bHexSize - 1) invalid
    require (stricmp row.algorithm (str "blake2b") = .eq) invalid
    let failedPath := failedPathOf row.filename
    let failed := invalidArchive "package signature verification failed" failedPath
    let expectedSize := (strtoull row.sizeText).1
    require ((strtoull row.sizeText).2 = []) failed
    let e ← orElse (locateEntry archive row.filename) failed
    require (0 ≤ e.uncompressedSize ∧ e.uncompressedSize = expectedSize) failed
    let bytes ← orElse (readCurrentEntry Z e expectedSize) failed
    require (stricmp (bin2hex (S.generichash bytes)) row.expectedHash = .eq) failed
    require (s.names.length < rowLimit) failed
    .ok ⟨s.names ++ [row.filename], failedPath⟩

/-- The loop over the lines. -/
def validateRows (archive : List ZipEntry) : Progress → List Bytes → Except (List Bytes) Progress
  | s, [] => .ok s
  | s, line :: lines => do
    let s ← validateRow S Z archive s line
    validateRows archive s lines

/-- `index_contains_path`, on the sorted rows. -/
def indexContainsPath (paths : List Bytes) (archivePath : Bytes) : Bool :=
  (bsearch stricmp archivePath paths).isSome

/-- The part of the loop over the entries that is for files. `paths` are the sorted rows, if the
archive is signed. -/
def validateFile (paths : Option (List Bytes)) (failed : List Bytes) (e : ZipEntry) :
    Except (List Bytes) Unit := do
  require (∀ rows ∈ paths, stricmp e.filename indexName ≠ .eq →
    stricmp e.filename signatureName ≠ .eq → indexContainsPath rows e.filename = true) failed
  let _ ← orElse (readCurrentEntry Z e e.uncompressedSize.toNat) failed
  .ok ()

/-- One entry of the archive. -/
def validateEntry (paths : Option (List Bytes)) (s : Progress) (e : ZipEntry) :
    Except (List Bytes) Progress := do
  let failed := invalidArchive "archive entry integrity or completeness"
  require (isSafeArchivePath e.filename = true ∧ s.names.length < entryLimit) (failed s.failedPath)
  bif Z.isDir e then .ok () else validateFile Z paths (failed (failedPathOf e.filename)) e
  .ok ⟨s.names ++ [normalizeArchiveSeparators e.filename], failedPathOf e.filename⟩

/-- The loop over the entries. -/
def validateEntries (paths : Option (List Bytes)) :
    Progress → List ZipEntry → Except (List Bytes) Progress
  | s, [] => .ok s
  | s, e :: archive => do
    let s ← validateEntry Z paths s e
    validateEntries paths s archive

/-- `archive_validate_handle`: the signing key of an accepted archive. -/
def archiveValidateHandle (archive : List ZipEntry) (allowUnsigned : Bool) :
    Except (List Bytes) Bytes := do
  let unread := invalidArchive "archive path, integrity, or trust" []
  let index ← orElse (readZipText Z archive indexName indexMaximum) unread
  let signature ← orElse (readZipText Z archive signatureName signatureMaximum) unread
  let signingKey ← (validateSignatureBytes S T signature index allowUnsigned).mapError (· ++ unread)
  let rows ← validateRows S Z archive ⟨[], []⟩ ((index.map archiveLines).getD [])
  let paths := sortBy stricmp rows.names
  require (distinctAdjacent stricmp paths = true)
    (invalidArchive "package signature verification failed" rows.failedPath)
  let files ← validateEntries Z (if signature.isSome ∧ index.isSome then some paths else none)
    ⟨[], rows.failedPath⟩ archive
  require (distinctAdjacent stricmp (sortBy stricmp files.names) = true)
    (invalidArchive "archive entry integrity or completeness" files.failedPath)
  pure signingKey

/-! ### The pass over the rows -/

/-- Row `row` vouches for entry `e`: the entry has the row's size and digest. -/
structure RowMatches (row : IndexRow) (e : ZipEntry) : Prop where
  size : ∃ n : ℕ, IsSize row.sizeText n ∧ e.uncompressedSize = n
  digest : ∃ bytes, content Z e = some bytes ∧
    fold (bin2hex (S.generichash bytes)) = fold row.expectedHash

/-- What the pass over the index establishes of a row. -/
structure RowAccepted (archive : List ZipEntry) (row : IndexRow) : Prop where
  safe : isSafeArchivePath row.filename = true
  hashLength : row.expectedHash.length = blake2bHexSize - 1
  algorithm : fold row.algorithm = str "blake2b"
  entry : ∃ e, locateEntry archive row.filename = some e ∧ RowMatches S Z row e

/-- The lines that are neither blank nor a header, trimmed. -/
def rowLines (lines : List Bytes) : List Bytes :=
  (lines.map trimLine).filter fun line => line ≠ [] ∧ stricmp line indexHeader ≠ .eq

lemma validateRow_eq_ok {archive : List ZipEntry} {s s' : Progress} {line : Bytes}
    (h : validateRow S Z archive s line = .ok s') :
    (rowLines [line] = [] ∧ s' = s) ∨
    ∃ row, rowLines [line] = [trimLine line] ∧ splitRow (trimLine line) = some row ∧
      s'.names = s.names ++ [row.filename] ∧ RowAccepted S Z archive row := by
  unfold validateRow at h
  by_cases hskip : trimLine line = [] ∨ stricmp (trimLine line) indexHeader = .eq
  · rw [if_pos hskip, Except.ok.injEq] at h
    refine Or.inl ⟨?_, h.symm⟩
    rw [rowLines, List.map_singleton, List.filter_cons_of_neg, List.filter_nil]
    rw [decide_eq_true_eq]
    tauto
  · rw [if_neg hskip] at h
    simp only [bind_eq_ok, orElse_eq_ok, require_eq_ok, exists_const, Except.ok.injEq] at h
    obtain ⟨row, hrow, hsafe, hdigit, hhash, halg, hend, e, he, hsize, bytes, hbytes, hdigest, -,
      rfl⟩ := h
    refine Or.inr ⟨row, ?_, hrow, rfl, hsafe, hhash, ?_, e, he, ?_, ?_⟩
    · rw [rowLines, List.map_singleton, List.filter_cons_of_pos, List.filter_nil]
      rw [decide_eq_true_eq]
      tauto
    · exact stricmp_eq_iff.1 halg
    · have hlt : (strtoull row.sizeText).1 < ullongMax := by
        have := e.uncompressedSize_lt
        simp only [ullongMax]
        omega
      exact ⟨_, isSize_of_strtoull hdigit (Prod.ext rfl hend) hlt, hsize.2⟩
    · exact ⟨bytes, content_of_readCurrentEntry Z hbytes, stricmp_eq_iff.1 hdigest⟩

lemma rowLines_cons (line : Bytes) (lines : List Bytes) :
    rowLines (line :: lines) = rowLines [line] ++ rowLines lines := by
  simp only [rowLines, List.map_cons, List.map_nil]
  rw [← List.filter_append, List.singleton_append]

/-- The pass over the index: every line that is neither blank nor a header is a row, and every row
is accepted. -/
lemma validateRows_eq_ok {archive : List ZipEntry} : ∀ {lines : List Bytes} {s s' : Progress},
    validateRows S Z archive s lines = .ok s' → ∃ rows : List IndexRow,
      (rowLines lines).map splitRow = rows.map some ∧
      s'.names = s.names ++ rows.map IndexRow.filename ∧ ∀ row ∈ rows, RowAccepted S Z archive row
  | [], s, s', h => by
    simp only [validateRows, Except.ok.injEq] at h
    exact ⟨[], by simp [rowLines], by simp [h], by simp⟩
  | line :: lines, s, s', h => by
    simp only [validateRows, bind_eq_ok] at h
    obtain ⟨s₁, h1, h2⟩ := h
    obtain ⟨rows, hlines, hnames, hrows⟩ := validateRows_eq_ok h2
    rw [rowLines_cons]
    rcases validateRow_eq_ok S Z h1 with ⟨hskip, rfl⟩ | ⟨row, hline, hsplit, hname, hacc⟩
    · exact ⟨rows, by rw [hskip, List.nil_append, hlines], hnames, hrows⟩
    · refine ⟨row :: rows, ?_, ?_, ?_⟩
      · rw [hline, List.map_append, hlines, List.map_singleton, hsplit]
        rfl
      · rw [hnames, hname, List.map_cons, List.append_assoc, List.singleton_append]
      · rintro r (_ | ⟨_, hr⟩)
        · exact hacc
        · exact hrows r hr

/-! ### The pass over the entries -/

/-- What the pass over the entries establishes of an entry. -/
structure EntryAccepted (paths : Option (List Bytes)) (e : ZipEntry) : Prop where
  safe : isSafeArchivePath e.filename = true
  readable : Z.isDir e = false → ∃ bytes, content Z e = some bytes
  indexed : Z.isDir e = false → ∀ rows ∈ paths, fold e.filename ≠ fold indexName →
    fold e.filename ≠ fold signatureName → indexContainsPath rows e.filename = true

lemma validateEntry_eq_ok {paths : Option (List Bytes)} {s s' : Progress} {e : ZipEntry}
    (h : validateEntry Z paths s e = .ok s') :
    s'.names = s.names ++ [normalizeArchiveSeparators e.filename] ∧ EntryAccepted Z paths e := by
  simp only [validateEntry, bind_eq_ok, require_eq_ok, exists_const, Except.ok.injEq] at h
  obtain ⟨⟨hsafe, -⟩, ⟨⟩, hfile, rfl⟩ := h
  cases hdir : Z.isDir e with
  | true => exact ⟨rfl, hsafe, by simp [hdir], by simp [hdir]⟩
  | false =>
    simp only [hdir, cond_false, validateFile, bind_eq_ok, require_eq_ok, orElse_eq_ok,
      exists_const, ne_eq, stricmp_eq_iff] at hfile
    obtain ⟨hindexed, bytes, hbytes, -⟩ := hfile
    exact ⟨rfl, hsafe, fun _ => ⟨bytes, hbytes⟩, fun _ => hindexed⟩

lemma validateEntries_eq_ok {paths : Option (List Bytes)} :
    ∀ {archive : List ZipEntry} {s s' : Progress}, validateEntries Z paths s archive = .ok s' →
      s'.names = s.names ++ archive.map (fun e => normalizeArchiveSeparators e.filename) ∧
      ∀ e ∈ archive, EntryAccepted Z paths e
  | [], s, s', h => by
    simp only [validateEntries, Except.ok.injEq] at h
    simp [h]
  | e :: archive, s, s', h => by
    simp only [validateEntries, bind_eq_ok] at h
    obtain ⟨s₁, h1, h2⟩ := h
    obtain ⟨hname, hacc⟩ := validateEntry_eq_ok Z h1
    obtain ⟨hnames, hrest⟩ := validateEntries_eq_ok h2
    refine ⟨by simp [hnames, hname], ?_⟩
    rintro x (_ | ⟨_, hx⟩)
    · exact hacc
    · exact hrest x hx

/-! ### Accepted archives -/

/-- The entry name that the duplicate scan compares. -/
def foldedName (e : ZipEntry) : Bytes := fold (normalizeArchiveSeparators e.filename)

/-- What `archive_validate_handle` establishes of an archive with index text `index` and signature
text `signature`. -/
structure ArchiveAccepted (archive : List ZipEntry) (allowUnsigned : Bool)
    (index signature : Option Bytes) (signingKey : Bytes) (rows : List IndexRow) : Prop where
  indexText : readZipText Z archive indexName indexMaximum = some index
  signatureText : readZipText Z archive signatureName signatureMaximum = some signature
  trust : validateSignatureBytes S T signature index allowUnsigned = .ok signingKey
  lines : (rowLines ((index.map archiveLines).getD [])).map splitRow = rows.map some
  rowsAccepted : ∀ row ∈ rows, RowAccepted S Z archive row
  rowsDistinct : (rows.map IndexRow.filename).Pairwise fun a b => fold a ≠ fold b
  entriesAccepted : ∀ e ∈ archive, EntryAccepted Z
    (if signature.isSome ∧ index.isSome then some (sortBy stricmp (rows.map IndexRow.filename))
      else none) e
  entriesDistinct : archive.Pairwise fun a b => foldedName a ≠ foldedName b

lemma distinct_iff {names : List Bytes} :
    distinctAdjacent stricmp (sortBy stricmp names) = true ↔
      names.Pairwise fun a b => fold a ≠ fold b := by
  rw [distinctAdjacent_sortBy]
  simp only [Distinct, ne_eq, stricmp_eq_iff]

/-- **An accepted archive passed every test of the validator.** -/
theorem archiveValidateHandle_eq_ok {archive : List ZipEntry} {allowUnsigned : Bool}
    {signingKey : Bytes}
    (h : archiveValidateHandle S Z T archive allowUnsigned = .ok signingKey) :
    ∃ index signature rows,
      ArchiveAccepted S Z T archive allowUnsigned index signature signingKey rows := by
  simp only [archiveValidateHandle, bind_eq_ok, orElse_eq_ok, require_eq_ok, exists_const,
    pure_eq_ok] at h
  obtain ⟨index, hindex, signature, hsignature, key, htrust, progress, hrows, hdistinct, files,
    hfiles, hunique, rfl⟩ := h
  obtain ⟨rows, hlines, hnames, hacc⟩ := validateRows_eq_ok S Z hrows
  obtain ⟨hfileNames, hentries⟩ := validateEntries_eq_ok Z hfiles
  rw [distinct_iff] at hdistinct hunique
  rw [List.nil_append] at hnames hfileNames
  rw [hnames] at hdistinct hentries
  rw [hfileNames, List.pairwise_map] at hunique
  refine ⟨index, signature, rows, hindex, hsignature, ?_, hlines, hacc, hdistinct, hentries,
    hunique⟩
  cases hv : validateSignatureBytes S T signature index allowUnsigned with
  | error e => simp [hv, Except.mapError] at htrust
  | ok k => simpa [hv, Except.mapError] using htrust

/-! ### Soundness -/

lemma toSlash_lower (c : UInt8) : toSlash (lower c) = lower (toSlash c) := by
  simp only [toSlash, lower, ch]
  grind

lemma fold_normalize (name : Bytes) :
    fold (normalizeArchiveSeparators name) = normalizeArchiveSeparators (fold name) := by
  simp only [fold, normalizeArchiveSeparators, List.map_map]
  exact List.map_congr_left fun c _ => (toSlash_lower c).symm

/-- Two entries of an accepted archive whose names agree up to case and slashes are one entry. -/
lemma eq_of_foldedName_eq {archive : List ZipEntry}
    (h : archive.Pairwise fun a b => foldedName a ≠ foldedName b) {a b : ZipEntry}
    (ha : a ∈ archive) (hb : b ∈ archive) (hab : foldedName a = foldedName b) : a = b :=
  List.inj_on_of_nodup_map (List.pairwise_map.2 h) ha hb hab

/-- The row that names an entry up to letter case names it exactly, and vouches for it. -/
lemma RowAccepted.matches {archive : List ZipEntry} {row : IndexRow} {e : ZipEntry}
    (hrow : RowAccepted S Z archive row) (he : e ∈ archive)
    (hunique : archive.Pairwise fun a b => foldedName a ≠ foldedName b)
    (hname : fold e.filename = fold row.filename) :
    row.filename = e.filename ∧ RowMatches S Z row e := by
  obtain ⟨e', hlocate, hmatch⟩ := hrow.entry
  obtain ⟨he', hnorm⟩ := locateEntry_eq_some hlocate
  have hee : e' = e := by
    refine eq_of_foldedName_eq hunique he' he ?_
    rw [foldedName, hnorm, fold_normalize, ← hname, foldedName, fold_normalize]
  subst hee
  exact ⟨eq_of_fold_eq_of_normalize_eq hname.symm hnorm.symm, hmatch⟩

/-- **Read-only validation is sound.** In a signed archive that it accepts, no two names agree up
to letter case and slashes, and every file but the two control files stands, with its size and its
digest, in a row of the index that a trusted key signed. -/
theorem archiveValidateHandle_sound {archive : List ZipEntry} {allowUnsigned : Bool}
    {signingKey : Bytes}
    (h : archiveValidateHandle S Z T archive allowUnsigned = .ok signingKey)
    (hsigned : ∃ e ∈ archive, normalizeArchiveSeparators e.filename = signatureName) :
    (archive.Pairwise fun a b =>
      fold (normalizeArchiveSeparators a.filename) ≠ fold (normalizeArchiveSeparators b.filename)) ∧
    ∃ index, readZipText Z archive indexName indexMaximum = some (some index) ∧
      TrustedFor S T index signingKey ∧
      ∀ e ∈ archive, Z.isDir e = false → fold e.filename ≠ fold indexName →
        fold e.filename ≠ fold signatureName →
        ∃ line ∈ rowLines (archiveLines index), ∃ row, splitRow line = some row ∧
          row.filename = e.filename ∧ RowMatches S Z row e := by
  obtain ⟨index, signature, rows, hacc⟩ := archiveValidateHandle_eq_ok S Z T h
  obtain ⟨text, rfl⟩ : ∃ text, signature = some text := by
    obtain ⟨e, he⟩ : ∃ e, locateEntry archive signatureName = some e := locateEntry_isSome hsigned
    have hread := hacc.signatureText
    simp only [readZipText, he, option_bind_eq_some, Option.some.injEq] at hread
    obtain ⟨-, -, text, -, -, -, htext⟩ := hread
    exact ⟨text, htext.symm⟩
  obtain ⟨bytes, rfl, htrusted⟩ := validateSignatureBytes_signed S T hacc.trust
  refine ⟨hacc.entriesDistinct, bytes, hacc.indexText, htrusted, fun e he hdir hindex hsig => ?_⟩
  have hcontains := (hacc.entriesAccepted e he).indexed hdir _ rfl hindex hsig
  rw [indexContainsPath, bsearch_isSome_iff] at hcontains
  obtain ⟨name, hname, heq⟩ := hcontains
  obtain ⟨row, hrow, rfl⟩ := List.mem_map.1 hname
  obtain ⟨hexact, hmatch⟩ := (hacc.rowsAccepted row hrow).matches S Z he hacc.entriesDistinct
    (stricmp_eq_iff.1 heq)
  have hline : some row ∈ (rowLines (archiveLines bytes)).map splitRow := by
    have hlines := hacc.lines
    rw [Option.map_some, Option.getD_some] at hlines
    rw [hlines]
    exact List.mem_map_of_mem hrow
  obtain ⟨line, hmem, hsplit⟩ := List.mem_map.1 hline
  exact ⟨line, hmem, row, hsplit, hexact, hmatch⟩

/-! ### A signed archive

One file `a`, an index with one row, and a signature under the key of the seed `9d61b19d…7f60`. The
library functions are given on the arguments that this archive leads to. -/

def unhex : Bytes → Bytes
  | a :: b :: s => UInt8.ofNat ((hexValue a).getD 0 * 16 + (hexValue b).getD 0) :: unhex s
  | _ => []

def sampleKey : Bytes :=
  unhex (str "d75a980182b10ab7d54bfed3c964073a0ee172f3daa62325af021a68f707511a")

def sampleKeyId : Bytes :=
  str "7849ac3049680be1ef762efe0d36e01733c3464eb0c7c558138acf24bb263bd3"

def sampleKeyText : Bytes := str "11qYAYKxCrfVS/7TyWQHOg7hcvPapiMlrwIaaPcHURo="

def sampleSignature : Bytes :=
  unhex (str "e9670cb96d4daa680db4922924e6f14f4fabd86ea0bb4bb089b1712d44689ae1" ++
    str "1e6c726f2b141b43b3cb85354c079acbe660148f05b624edf284f8e991515b02")

def sampleSignatureText : Bytes :=
  str "6WcMuW1NqmgNtJIpJObxT0+r2G6gu0uwibFxLURomuEebHJvKxQbQ7PLhTVMB5rL5mAUjwW2JO3yhPjpkVFbAg=="

def sampleIndex : Bytes :=
  str "filename,size,hash,algorithm\r\n" ++
    str "a,1,6e5c1f45cbaf19f94230ba3501c378a5335af71a331b5b5aed62792332288dc3,blake2b\r\n"

def sampleSignatureFile : Bytes :=
  str "\x7b\n  \"version\": 1,\n  \"algorithm\": \"ed25519\",\n  \"key_id\": \"" ++ sampleKeyId ++
    str "\",\n  \"public_key\": \"" ++ sampleKeyText ++ str "\",\n  \"signature\": \"" ++
    sampleSignatureText ++ str "\"\n\x7d\n"

def sampleSodium : Sodium where
  generichash m :=
    if m = str "b" then
      unhex (str "6e5c1f45cbaf19f94230ba3501c378a5335af71a331b5b5aed62792332288dc3")
    else if m = sampleKey then unhex sampleKeyId
    else List.replicate 32 0
  length_generichash m := by split_ifs <;> decide
  base642bin _ text :=
    if text = sampleKeyText then some sampleKey
    else if text = sampleSignatureText then some sampleSignature
    else none
  signVerifyDetached sig m key := sig = sampleSignature ∧ m = sampleIndex ∧ key = sampleKey

def sampleZipLib : ZipLib where
  inflate _ := none
  crc32 m :=
    if m = str "b" then 1908338681 else if m = sampleIndex then 181743357
    else if m = sampleSignatureFile then 2187086540 else 0
  isDir e := e.externalFa.testBit 4 || isSeparator (e.filename.getLastD 0)
  isSymlink e := e.externalFa.testBit 10

def sampleTrust : TrustStore where
  dataRoot := some (str "C:\\ProgramData\\wpm")
  pub id :=
    if id = sampleKeyId then
      some (str "wpm-public-key-v1\nalgorithm=ed25519\npublic-key=" ++ sampleKeyText ++ str "\n")
    else none
  revoked _ := false
  authority := false

/-- A stored file. -/
def storedEntry (filename data : Bytes) (h : (0 : UInt8) ∉ filename)
    (hsize : (data.length : ℤ) < 0x8000000000000000) : ZipEntry where
  filename := filename
  uncompressedSize := data.length
  compressedSize := data.length
  flag := 0
  compressionMethod := methodStore
  crc := sampleZipLib.crc32 data
  versionMadeby := 0
  externalFa := 0x20
  data := data
  zero_notMem_filename := h
  uncompressedSize_lt := hsize

def sampleArchive : List ZipEntry :=
  [storedEntry indexName sampleIndex (by decide) (by decide +kernel),
    storedEntry signatureName sampleSignatureFile (by decide) (by decide +kernel),
    storedEntry (str "a") (str "b") (by decide) (by decide)]

theorem archiveValidateHandle_sound_sample :
    archiveValidateHandle sampleSodium sampleZipLib sampleTrust sampleArchive false =
      .ok sampleKeyId ∧
    (sampleArchive.Pairwise fun a b =>
      fold (normalizeArchiveSeparators a.filename) ≠ fold (normalizeArchiveSeparators b.filename)) ∧
    ∃ index, readZipText sampleZipLib sampleArchive indexName indexMaximum = some (some index) ∧
      TrustedFor sampleSodium sampleTrust index sampleKeyId ∧
      ∀ e ∈ sampleArchive, sampleZipLib.isDir e = false → fold e.filename ≠ fold indexName →
        fold e.filename ≠ fold signatureName →
        ∃ line ∈ rowLines (archiveLines index), ∃ row, splitRow line = some row ∧
          row.filename = e.filename ∧ RowMatches sampleSodium sampleZipLib row e :=
  have h : archiveValidateHandle sampleSodium sampleZipLib sampleTrust sampleArchive false =
      .ok sampleKeyId := by decide +kernel
  ⟨h, archiveValidateHandle_sound _ _ _ h (by decide +kernel)⟩

end Wpm.Archive
