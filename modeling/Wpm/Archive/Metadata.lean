import Wpm.Archive.Path
import Wpm.Lib.Text
import Wpm.Operation.State

/-!
The metadata of a package, `.wpm/package.txt`, and its two readers.

The staged file is read by lines in text mode (`readPackageMetadata`), the entry of an archive in
memory (`readArchiveMetadata`). Both take a line to be a setting of the same form; they differ in
what they take to be a line. Where the two see the same settings they agree, and
`filterMap_inspectLines` says of a text of which kind they do.
-/

namespace Wpm.Archive

open Wpm.Lib.CString Wpm.Lib.Text Wpm.Operation

/-! ### Settings -/

/-- `wpm_package_metadata`. -/
structure PackageMetadata where
  name : Bytes
  version : Bytes
  arch : Bytes
  debug : Bool
  deriving DecidableEq

/-- `is_safe_metadata_value`. -/
def isSafeMetadataValue (value : Bytes) : Bool :=
  value ≠ [] && value ≠ str "." && value ≠ str ".." &&
    value.all fun c => isAlnum c || c = ch '-' || c = ch '_' || c = ch '.' || c = ch '+'

/-- `parse_bool_metadata_value`. -/
def parseBoolMetadataValue (value : Bytes) : Option Bool :=
  if fold value = str "true" ∨ fold value = str "yes" ∨ fold value = str "on" ∨
    value = str "1" then some true
  else if fold value = str "false" ∨ fold value = str "no" ∨ fold value = str "off" ∨
    value = str "0" then some false
  else none

/-- The key and the value on a line: blank lines, comments and lines without `=` have none. -/
def lineSetting (line : Bytes) : Option (Bytes × Bytes) :=
  let line := trimLine line
  if line = [] ∨ cur line = ch '#' then none
  else (cutAt (ch '=') line).map fun p => (trimLine p.1, trimLine p.2)

/-- What the loops of both readers do with a setting: a value that does not fit its field, and a
`debug` that is no truth value, are errors, and other keys are passed over. -/
def applySetting (m : PackageMetadata) (key value : Bytes) : Option PackageMetadata :=
  if fold key = str "name" then
    if 128 ≤ value.length then none else some { m with name := value }
  else if fold key = str "version" then
    if 64 ≤ value.length then none else some { m with version := value }
  else if fold key = str "arch" then
    if 64 ≤ value.length then none else some { m with arch := value }
  else if fold key = str "debug" then
    (parseBoolMetadataValue value).map fun debug => { m with debug }
  else some m

/-- The loop over the lines. -/
def readSettings : List Bytes → PackageMetadata → Option PackageMetadata
  | [], m => some m
  | line :: lines, m =>
    match lineSetting line with
    | none => readSettings lines m
    | some (key, value) =>
      match applySetting m key value with
      | none => none
      | some m => readSettings lines m

/-- The fields before the first line, and the check after the last one. -/
def metadataOf (lines : List Bytes) : Option PackageMetadata := do
  let m ← readSettings lines ⟨[], [], [], false⟩
  if isSafeMetadataValue m.name && isSafeMetadataValue m.version && isSafeMetadataValue m.arch then
    some m
  else none

/-! ### The two readers -/

/-- `read_package_metadata`, of the file's bytes. -/
def readPackageMetadata (file : Bytes) : Option PackageMetadata :=
  metadataOf ((fgetsAll pathSize (textMode file)).map cstr)

def isLineEnd (c : UInt8) : Bool := c = 13 ∨ c = 10

/-- The lines that the loop of `read_archive_metadata_handle` takes from the buffer: up to a carriage
return or line feed, with the run of them that follows skipped. -/
def inspectLines : ℕ → Bytes → List Bytes
  | 0, _ => []
  | fuel + 1, current =>
    if current = [] then []
    else current.takeWhile (fun c => !isLineEnd c) ::
      inspectLines fuel ((current.dropWhile fun c => !isLineEnd c).dropWhile isLineEnd)

/-- `read_archive_metadata_handle`, of the bytes of the entry. -/
def readArchiveMetadata (entry : Bytes) : Option PackageMetadata :=
  if 1024 * 1024 < entry.length then none
  else metadataOf (inspectLines (cstr entry).length (cstr entry))

/-- The identity that the metadata gives. -/
def PackageMetadata.identity (m : PackageMetadata) : PackageInfo := ⟨m.name, m.version, m.arch⟩

/-- `wpm_archive_inspect`: the values are copied to the fields of a `wpm_package_info`. -/
def archiveInspect (entry : Bytes) : Option PackageInfo :=
  (readArchiveMetadata entry).map fun m =>
    ⟨copyText 128 m.name, copyText 64 m.version, copyText 16 m.arch⟩

/-- **The readers agree on a text**: they both reject it, or give the same identity, and that is the
one that `wpm_archive_inspect` copies out. -/
structure ReadersAgree (text : Bytes) : Prop where
  same : (readArchiveMetadata text).map PackageMetadata.identity =
    (readPackageMetadata text).map PackageMetadata.identity
  copied : archiveInspect text = (readArchiveMetadata text).map PackageMetadata.identity

/-! ### The lines that the readers see -/

lemma trimLine_append {line tail : Bytes} (h : ∀ c ∈ tail, isTrailingBlank c = true) :
    trimLine (line ++ tail) = trimLine line := by
  induction tail using List.reverseRecOn with
  | nil => rw [List.append_nil]
  | append_singleton tail c ih =>
    rw [← List.append_assoc, trimLine_concat (h c (by simp))]
    exact ih fun d hd => h d (by simp [hd])

lemma lineSetting_append {line tail : Bytes} (h : ∀ c ∈ tail, isTrailingBlank c = true) :
    lineSetting (line ++ tail) = lineSetting line := by
  rw [lineSetting, lineSetting, trimLine_append h]

lemma lineSetting_blank {line : Bytes} (h : ∀ c ∈ line, isTrailingBlank c = true) :
    lineSetting line = none := (@lineSetting_append [] _ h).trans rfl

/-- The loop sees of the lines only their settings. -/
lemma readSettings_eq_foldlM (lines : List Bytes) (m : PackageMetadata) : readSettings lines m =
    (lines.filterMap lineSetting).foldlM (fun m p => applySetting m p.1 p.2) m := by
  induction lines generalizing m with
  | nil => rfl
  | cons line lines ih =>
    rw [readSettings]
    cases hs : lineSetting line with
    | none => rw [List.filterMap_cons_none hs, ih]
    | some p =>
      rw [List.filterMap_cons_some hs, List.foldlM_cons]
      cases ha : applySetting m p.1 p.2 with
      | none => simp only [ha]; rfl
      | some m' => simp only [ha, ih]; rfl

lemma metadataOf_congr {lines lines' : List Bytes}
    (h : lines.filterMap lineSetting = lines'.filterMap lineSetting) :
    metadataOf lines = metadataOf lines' := by
  rw [metadataOf, metadataOf, readSettings_eq_foldlM, readSettings_eq_foldlM, h]

/-- The lines of a text when every carriage return and every line feed ends one, with the start of
the first line. -/
def splitLinesFrom : Bytes → Bytes → List Bytes
  | held, [] => [held]
  | held, c :: text =>
    if isLineEnd c then held :: splitLinesFrom [] text else splitLinesFrom (held ++ [c]) text

lemma splitLinesFrom_eq : ∀ (text held : Bytes), splitLinesFrom held text =
    (held ++ text.takeWhile fun c => !isLineEnd c) ::
      match text.dropWhile fun c => !isLineEnd c with
      | [] => []
      | _ :: rest => splitLinesFrom [] rest
  | [], held => by simp [splitLinesFrom]
  | c :: text, held => by
    rw [splitLinesFrom]
    by_cases hc : isLineEnd c = true
    · rw [if_pos hc, List.takeWhile_cons_of_neg (by simp [hc]), List.append_nil,
        List.dropWhile_cons_of_neg (by simp [hc])]
    · rw [if_neg hc, List.takeWhile_cons_of_pos (by simp [hc]),
        List.dropWhile_cons_of_pos (by simp [hc]), splitLinesFrom_eq text (held ++ [c]),
        List.append_assoc, List.singleton_append]

lemma filterMap_splitLinesFrom_dropWhile : ∀ text : Bytes,
    (splitLinesFrom [] (text.dropWhile isLineEnd)).filterMap lineSetting =
      (splitLinesFrom [] text).filterMap lineSetting
  | [] => rfl
  | c :: text => by
    by_cases hc : isLineEnd c = true
    · rw [List.dropWhile_cons_of_pos hc, filterMap_splitLinesFrom_dropWhile text, splitLinesFrom,
        if_pos hc]
      rfl
    · rw [List.dropWhile_cons_of_neg hc]

/-- The archive's reader skips blank lines only. -/
lemma filterMap_inspectLines : ∀ {fuel : ℕ} {text : Bytes}, text.length ≤ fuel →
    (inspectLines fuel text).filterMap lineSetting =
      (splitLinesFrom [] text).filterMap lineSetting
  | 0, text, h => by
    obtain rfl := List.eq_nil_of_length_eq_zero (Nat.le_zero.1 h)
    rfl
  | fuel + 1, text, h => by
    unfold inspectLines
    split_ifs with hnil
    · subst hnil
      rfl
    · rw [splitLinesFrom_eq, List.nil_append, List.filterMap_cons, List.filterMap_cons]
      have hrest : (inspectLines fuel ((text.dropWhile fun c => !isLineEnd c).dropWhile
          isLineEnd)).filterMap lineSetting = (match text.dropWhile fun c => !isLineEnd c with
            | [] => []
            | _ :: rest => splitLinesFrom [] rest).filterMap lineSetting := by
        cases hd : text.dropWhile fun c => !isLineEnd c with
        | nil => cases fuel <;> rfl
        | cons c rest =>
          have hc : isLineEnd c = true := by
            have hhead := List.head?_dropWhile_not (fun c => !isLineEnd c) text
            simpa [hd] using hhead
          have hlen : (c :: rest).length ≤ text.length := hd ▸ List.length_dropWhile_le _ _
          rw [List.dropWhile_cons_of_pos hc, @filterMap_inspectLines fuel,
            filterMap_splitLinesFrom_dropWhile]
          have := List.length_dropWhile_le isLineEnd rest
          rw [List.length_cons] at hlen
          omega
      rw [hrest]

/-- After a carriage return the line has blanks only. -/
def CrEndsLine (line : Bytes) : Prop := ∀ c ∈ line.dropWhile (· ≠ 13), isTrailingBlank c = true

instance (line : Bytes) : Decidable (CrEndsLine line) :=
  inferInstanceAs (Decidable (∀ c ∈ line.dropWhile (· ≠ 13), isTrailingBlank c = true))

/-- **A text in which both readers see the same lines**: every line fits the buffer of the staged
reader, and a carriage return is found only at the end of a line. -/
structure PlainText (text : Bytes) : Prop where
  linesFit : ∀ line ∈ textLines (textMode text), line.length < pathSize
  crEndsLine : ∀ line ∈ textLines text, CrEndsLine line

/-- What follows the start of a line is a blank, once there was a carriage return. -/
lemma CrEndsLine.blank {held tail rest : Bytes} {c : UInt8} (hheld : (13 : UInt8) ∉ held)
    (h : CrEndsLine (held ++ 13 :: tail ++ [c] ++ rest)) : isTrailingBlank c = true := by
  refine h c ?_
  have hdrop : ∀ l : Bytes, (held ++ l).dropWhile (· ≠ 13) = l.dropWhile (· ≠ 13) := fun l =>
    List.dropWhile_append_of_pos fun d hd => by
      simpa using fun he : d = 13 => hheld (he ▸ hd)
  rw [List.append_assoc, List.append_assoc, hdrop, List.cons_append,
    List.dropWhile_cons_of_neg (by simp)]
  simp

/-- Splitting at carriage returns too gives the same settings. The second part is about a line that
had a carriage return after `held`, and blanks from there on. -/
lemma filterMap_splitLinesFrom (text : Bytes) :
    (∀ held : Bytes, (13 : UInt8) ∉ held → (∀ line ∈ textLinesFrom held text, CrEndsLine line) →
      (splitLinesFrom held text).filterMap lineSetting =
        (textLinesFrom held text).filterMap lineSetting) ∧
    ∀ held tail blanks : Bytes, (13 : UInt8) ∉ held → (∀ c ∈ tail, isTrailingBlank c = true) →
      (∀ c ∈ blanks, isTrailingBlank c = true) →
      (∀ line ∈ textLinesFrom (held ++ 13 :: tail) text, CrEndsLine line) →
      (lineSetting held).toList ++ (splitLinesFrom blanks text).filterMap lineSetting =
        (textLinesFrom (held ++ 13 :: tail) text).filterMap lineSetting := by
  have htail : ∀ {held tail : Bytes}, (∀ c ∈ tail, isTrailingBlank c = true) →
      lineSetting (held ++ 13 :: tail) = lineSetting held := fun ht =>
    lineSetting_append fun c hc => by
      rcases List.mem_cons.1 hc with rfl | hc
      · rfl
      · exact ht c hc
  induction text with
  | nil =>
    refine ⟨fun held _ _ => ?_, fun held tail blanks _ ht hb _ => ?_⟩
    · rw [splitLinesFrom, textLinesFrom]
      split_ifs with hnil
      · subst hnil
        rfl
      · rfl
    · rw [splitLinesFrom, textLinesFrom, if_neg (by simp), List.filterMap_cons_none
        (lineSetting_blank hb), List.filterMap_nil, List.append_nil, List.filterMap_cons, htail ht]
      cases lineSetting held <;> rfl
  | cons c text ih =>
    obtain ⟨ih, ihtail⟩ := ih
    refine ⟨fun held hheld hcr => ?_, fun held tail blanks hheld ht hb hcr => ?_⟩
    · unfold splitLinesFrom textLinesFrom
      unfold textLinesFrom at hcr
      by_cases hlf : c = 10
      · subst hlf
        rw [if_pos rfl] at hcr ⊢
        rw [if_pos (by decide), List.filterMap_cons, List.filterMap_cons,
          ih [] List.not_mem_nil fun line hline => hcr line (List.mem_cons_of_mem _ hline)]
      · rw [if_neg hlf] at hcr ⊢
        by_cases hc : c = 13
        · subst hc
          rw [if_pos (by decide), ← ihtail held [] [] hheld (by simp) (by simp) hcr,
            List.filterMap_cons]
          cases lineSetting held <;> rfl
        · rw [if_neg (by simp [isLineEnd, hlf, hc])]
          exact ih (held ++ [c]) (by simp [hheld, Ne.symm hc]) hcr
    · unfold splitLinesFrom textLinesFrom
      unfold textLinesFrom at hcr
      by_cases hlf : c = 10
      · subst hlf
        rw [if_pos rfl] at hcr ⊢
        rw [if_pos (by decide), List.filterMap_cons_none (lineSetting_blank hb),
          List.filterMap_cons, htail ht,
          ih [] List.not_mem_nil fun line hline => hcr line (List.mem_cons_of_mem _ hline)]
        cases lineSetting held <;> rfl
      · rw [if_neg hlf] at hcr ⊢
        have hblank : isTrailingBlank c = true := by
          obtain ⟨line, hline, rest, rfl⟩ :=
            @held_isPrefix_textLinesFrom text (held ++ 13 :: tail ++ [c]) (by simp)
          exact (hcr _ hline).blank hheld
        have hsnoc : ∀ {l : Bytes}, (∀ d ∈ l, isTrailingBlank d = true) →
            ∀ d ∈ l ++ [c], isTrailingBlank d = true := fun hl d hd => by
          rcases List.mem_append.1 hd with hd | hd
          · exact hl d hd
          · exact List.mem_singleton.1 hd ▸ hblank
        rw [List.append_assoc, List.cons_append] at hcr ⊢
        by_cases hc : c = 13
        · subst hc
          rw [if_pos (by decide), List.filterMap_cons_none (lineSetting_blank hb)]
          exact ihtail held (tail ++ [13]) [] hheld (hsnoc ht) (by simp) hcr
        · rw [if_neg (by simp [isLineEnd, hlf, hc])]
          exact ihtail held (tail ++ [c]) (blanks ++ [c]) hheld (hsnoc ht) (hsnoc hb) hcr

/-- **Both readers see the same settings** in a plain text. -/
lemma PlainText.settings_eq {text : Bytes} (h : PlainText text) (hzero : (0 : UInt8) ∉ text) :
    ((fgetsAll pathSize (textMode text)).map cstr).filterMap lineSetting =
      (inspectLines (cstr text).length (cstr text)).filterMap lineSetting := by
  have hcstr : ∀ line ∈ textLines text, lineSetting (cstr line) = lineSetting line :=
    fun line hline => congrArg lineSetting
      (cstr_eq_self fun h0 => hzero (mem_of_mem_textLines hline h0))
  have hconcat : ∀ {c : UInt8}, isTrailingBlank c = true → ∀ line,
      lineSetting (cstr (line ++ [c])) = lineSetting (cstr line) := fun hc line => by
    rw [lineSetting, lineSetting, trimLine_cstr_concat hc]
  calc ((fgetsAll pathSize (textMode text)).map cstr).filterMap lineSetting
      = (fgetsAll pathSize (textMode text)).filterMap (lineSetting ∘ cstr) := List.filterMap_map
    _ = (textLines (textMode text)).filterMap (lineSetting ∘ cstr) :=
        filterMap_fgetsFrom (lineSetting ∘ cstr)
          (hconcat (by decide)) rfl h.linesFit (by decide)
    _ = ((textLines (textMode text)).map fun line => lineSetting (cstr line)).filterMap id := by
        rw [List.filterMap_map]; rfl
    _ = ((textLines text).map fun line => lineSetting (cstr line)).filterMap id := by
        rw [textLines, textLines,
          map_textLinesFrom_textMode _ (hconcat (by decide)) []]
    _ = (textLines text).filterMap lineSetting := by
        rw [List.map_congr_left hcstr, List.filterMap_map]; rfl
    _ = (splitLinesFrom [] text).filterMap lineSetting :=
        ((filterMap_splitLinesFrom text).1 [] List.not_mem_nil h.crEndsLine).symm
    _ = (inspectLines (cstr text).length (cstr text)).filterMap lineSetting := by
        rw [cstr_eq_self hzero, filterMap_inspectLines le_rfl]

/-! ### The agreement of the readers -/

/-- The value of the last of the settings of the architecture. -/
def lastArch (settings : List (Bytes × Bytes)) : Option Bytes :=
  (settings.filter fun p => fold p.1 = str "arch").getLast?.map Prod.snd

lemma lastArch_cons (p : Bytes × Bytes) (settings : List (Bytes × Bytes)) :
    lastArch (p :: settings) = (lastArch settings).or
      (if fold p.1 = str "arch" then some p.2 else none) := by
  unfold lastArch
  by_cases hp : fold p.1 = str "arch"
  · rw [List.filter_cons_of_pos (by simpa using hp), if_pos hp, List.getLast?_cons]
    cases (settings.filter fun p => fold p.1 = str "arch").getLast? <;> rfl
  · rw [List.filter_cons_of_neg (by simpa using hp), if_neg hp, Option.or_none]

/-- The fields of `wpm_package_info` that have room for all of the metadata. -/
def FieldsFit (m : PackageMetadata) : Prop := m.name.length < 128 ∧ m.version.length < 64

/-- What a setting does to the texts. -/
lemma applySetting_fields {m m' : PackageMetadata} {p : Bytes × Bytes}
    (h : applySetting m p.1 p.2 = some m') :
    m'.name = (if fold p.1 = str "name" then p.2 else m.name) ∧
      m'.version = (if fold p.1 = str "version" then p.2 else m.version) ∧
      m'.arch = if fold p.1 = str "arch" then p.2 else m.arch := by
  have hkeys : str "name" ≠ str "version" ∧ str "name" ≠ str "arch" ∧ str "version" ≠ str "arch" ∧
      str "debug" ≠ str "name" ∧ str "debug" ≠ str "version" ∧ str "debug" ≠ str "arch" := by
    decide
  simp only [applySetting] at h
  split_ifs at h with hname h128 hversion h64 harch h64' hdebug
  · obtain rfl := Option.some.inj h
    rw [hname, if_pos rfl, if_neg hkeys.1, if_neg hkeys.2.1]
    exact ⟨rfl, rfl, rfl⟩
  · obtain rfl := Option.some.inj h
    rw [hversion, if_neg hkeys.1.symm, if_pos rfl, if_neg hkeys.2.2.1]
    exact ⟨rfl, rfl, rfl⟩
  · obtain rfl := Option.some.inj h
    rw [harch, if_neg hkeys.2.1.symm, if_neg hkeys.2.2.1.symm, if_pos rfl]
    exact ⟨rfl, rfl, rfl⟩
  · obtain ⟨debug, -, rfl⟩ := Option.map_eq_some_iff.1 h
    rw [if_neg hname, if_neg hversion, if_neg harch]
    exact ⟨rfl, rfl, rfl⟩
  · obtain rfl := Option.some.inj h
    rw [if_neg hname, if_neg hversion, if_neg harch]
    exact ⟨rfl, rfl, rfl⟩

/-- What a setting does to the fields. -/
lemma applySetting_spec {m m' : PackageMetadata} {p : Bytes × Bytes}
    (h : applySetting m p.1 p.2 = some m') (hm : FieldsFit m) : FieldsFit m' ∧
      m'.arch = if fold p.1 = str "arch" then p.2 else m.arch := by
  refine ⟨?_, (applySetting_fields h).2.2⟩
  simp only [applySetting] at h
  split_ifs at h with hname h128 hversion h64 harch h64' hdebug
  · obtain rfl := Option.some.inj h
    exact ⟨not_le.1 h128, hm.2⟩
  · obtain rfl := Option.some.inj h
    exact ⟨hm.1, not_le.1 h64⟩
  · obtain rfl := Option.some.inj h
    exact hm
  · obtain ⟨debug, -, rfl⟩ := Option.map_eq_some_iff.1 h
    exact hm
  · obtain rfl := Option.some.inj h
    exact hm

lemma foldlM_applySetting {m' : PackageMetadata} : ∀ {settings : List (Bytes × Bytes)}
    {m : PackageMetadata},
    settings.foldlM (fun m p => applySetting m p.1 p.2) m = some m' → FieldsFit m →
      FieldsFit m' ∧ m'.arch = (lastArch settings).getD m.arch
  | [], m, h, hm => by
    obtain rfl := Option.some.inj h
    exact ⟨hm, rfl⟩
  | p :: settings, m, h, hm => by
    rw [List.foldlM_cons] at h
    obtain ⟨m₁, h1, h2⟩ := Option.bind_eq_some_iff.1 h
    obtain ⟨hm₁, harch⟩ := applySetting_spec h1 hm
    obtain ⟨hm', harch'⟩ := foldlM_applySetting h2 hm₁
    refine ⟨hm', harch'.trans ?_⟩
    rw [lastArch_cons, harch]
    cases lastArch settings with
    | some v => rfl
    | none => by_cases hp : fold p.1 = str "arch" <;> simp [hp]

/-- Metadata that is accepted has the last architecture that was set, and it is not empty. -/
lemma metadataOf_eq_some {lines : List Bytes} {m : PackageMetadata} (h : metadataOf lines = some m) :
    FieldsFit m ∧ lastArch (lines.filterMap lineSetting) = some m.arch ∧ m.arch ≠ [] := by
  rw [metadataOf, readSettings_eq_foldlM] at h
  obtain ⟨m', hm', h⟩ := Option.bind_eq_some_iff.1 h
  obtain ⟨hsafe, h⟩ := Option.ite_none_right_eq_some.1 h
  obtain rfl := Option.some.inj h
  obtain ⟨hfit, harch⟩ := foldlM_applySetting hm' ⟨by decide, by decide⟩
  have hne : m'.arch ≠ [] := by
    rintro he
    rw [he] at hsafe
    simp [isSafeMetadataValue] at hsafe
  refine ⟨hfit, ?_, hne⟩
  cases hl : lastArch (lines.filterMap lineSetting) with
  | none =>
    rw [hl] at harch
    exact absurd harch hne
  | some v =>
    rw [hl] at harch
    exact congrArg some harch.symm

/-- The architecture that an accepted text sets last fits its field of `wpm_package_info`. -/
def ArchFits (text : Bytes) : Prop :=
  (readPackageMetadata text).isSome → ∀ arch,
    lastArch ((splitLinesFrom [] text).filterMap lineSetting) = some arch → arch.length < 16

lemma copyText_eq_self_iff {size : ℕ} {text : Bytes} (h : text ≠ []) :
    copyText size text = text ↔ text.length < size := by
  unfold copyText
  split_ifs with hlt
  · exact iff_of_true rfl hlt
  · exact iff_of_false (Ne.symm h) hlt

lemma copyText_of_lt {size : ℕ} {text : Bytes} (h : text.length < size) :
    copyText size text = text := if_pos h

/-- On a plain text the readers agree if and only if the architecture fits. -/
lemma PlainText.agree_iff_archFits {text : Bytes} (hplain : PlainText text)
    (hzero : (0 : UInt8) ∉ text) (hsize : text.length ≤ 1024 * 1024) :
    ReadersAgree text ↔ ArchFits text := by
  have hsame : readArchiveMetadata text = readPackageMetadata text := by
    rw [readArchiveMetadata, if_neg (not_lt.2 hsize), readPackageMetadata]
    exact metadataOf_congr (hplain.settings_eq hzero).symm
  have hsettings : (inspectLines (cstr text).length (cstr text)).filterMap lineSetting =
      (splitLinesFrom [] text).filterMap lineSetting := by
    rw [cstr_eq_self hzero, filterMap_inspectLines le_rfl]
  have hiff : ReadersAgree text ↔
      archiveInspect text = (readArchiveMetadata text).map PackageMetadata.identity :=
    ⟨fun h => h.copied, fun h => ⟨by rw [hsame], h⟩⟩
  rw [hiff, ArchFits, ← hsame, archiveInspect]
  cases hm : readArchiveMetadata text with
  | none => simp
  | some m =>
    rw [readArchiveMetadata, if_neg (not_lt.2 hsize)] at hm
    obtain ⟨⟨hname, hversion⟩, harch, hne⟩ := metadataOf_eq_some hm
    rw [hsettings] at harch
    simp only [Option.map_some, Option.some.injEq, PackageMetadata.identity, PackageInfo.mk.injEq,
      copyText_of_lt hname, copyText_of_lt hversion, true_and, copyText_eq_self_iff hne,
      Option.isSome_some, forall_const, harch, forall_eq']

/-- A line with a setting that is refused, whatever was read before it. -/
def Refused (line : Bytes) : Prop :=
  ∃ p, lineSetting line = some p ∧ applySetting ⟨[], [], [], false⟩ p.1 p.2 = none

/-- Both readers refuse what they first take of a text to be a line: the staged one as much of the
line as its buffer holds, the other one what stands before a carriage return. -/
structure RefusedAt (text : Bytes) : Prop where
  staged : Refused (((textMode text).takeWhile (· ≠ 10)).take (pathSize - 1))
  archived : Refused (text.takeWhile fun c => !isLineEnd c)

/-- **A text that is plain as far as it is read**: all of it, or up to a line that both readers
refuse. -/
def PlainAsRead (text : Bytes) : Prop :=
  PlainText text ∨ ∃ before after, text = before ++ after ∧ PlainText before ∧
    (before = [] ∨ before.getLast? = some 10) ∧ RefusedAt after

lemma applySetting_eq_none {m m' : PackageMetadata} {key value : Bytes}
    (h : applySetting m key value = none) : applySetting m' key value = none := by
  simp only [applySetting] at h ⊢
  split_ifs at h ⊢ with hname h128 hversion h64 harch h64' hdebug
  · rfl
  · rfl
  · rfl
  · rw [Option.map_eq_none_iff] at h ⊢
    exact h

/-- No metadata comes of settings with one that is refused. -/
lemma metadataOf_eq_none {lines : List Bytes} {line : Bytes}
    (settings settings' : List (Bytes × Bytes)) (hline : Refused line)
    (h : lines.filterMap lineSetting = settings ++ (lineSetting line).toList ++ settings') :
    metadataOf lines = none := by
  obtain ⟨p, hp, hnone⟩ := hline
  rw [hp] at h
  have hread : readSettings lines ⟨[], [], [], false⟩ = none := by
    rw [readSettings_eq_foldlM, h, List.append_assoc, List.foldlM_append]
    cases settings.foldlM (fun m p => applySetting m p.1 p.2)
        (⟨[], [], [], false⟩ : PackageMetadata) with
    | none => rfl
    | some m =>
      change (p :: settings').foldlM (fun m p => applySetting m p.1 p.2) m = none
      rw [List.foldlM_cons, applySetting_eq_none hnone]
      rfl
  rw [metadataOf, hread]
  rfl

/-- The lines after a line end are those of the rest. -/
lemma splitLinesFrom_append (rest : Bytes) : ∀ {text : Bytes} (held : Bytes),
    text.getLast? = some 10 → (splitLinesFrom held (text ++ rest)).filterMap lineSetting =
      (splitLinesFrom held text).filterMap lineSetting ++
        (splitLinesFrom [] rest).filterMap lineSetting
  | [], _, h => by simp at h
  | [c], held, h => by
    obtain rfl : c = 10 := by simpa using h
    rw [List.singleton_append, splitLinesFrom, splitLinesFrom, if_pos (by decide),
      if_pos (by decide), splitLinesFrom, List.filterMap_cons, List.filterMap_cons]
    cases lineSetting held <;> rfl
  | c :: d :: text, held, h => by
    have hlast : (d :: text).getLast? = some 10 := by simpa using h
    rw [List.cons_append, splitLinesFrom, splitLinesFrom]
    split_ifs
    · rw [List.filterMap_cons, List.filterMap_cons, splitLinesFrom_append rest [] hlast]
      cases lineSetting held <;> rfl
    · exact splitLinesFrom_append rest (held ++ [c]) hlast

/-- A text with a line that both readers refuse is refused by both. -/
lemma RefusedAt.eq_none {before after : Bytes} (hzero : (0 : UInt8) ∉ before ++ after)
    (hbefore : before = [] ∨ before.getLast? = some 10) (h : RefusedAt after) :
    readPackageMetadata (before ++ after) = none ∧
      readArchiveMetadata (before ++ after) = none := by
  constructor
  · have hne : (textMode after).takeWhile (· ≠ 10) ≠ [] := by
      intro he
      obtain ⟨p, hp, -⟩ := h.staged
      rw [he, List.take_nil] at hp
      exact absurd (hp.symm.trans (lineSetting_blank (by simp))) (Option.some_ne_none p)
    obtain ⟨tail, rest, htail, hcons⟩ :=
      exists_fgetsFrom_eq_cons (by decide : ([] : Bytes).length + 2 ≤ pathSize) hne
    rw [List.nil_append] at hcons
    set line := ((textMode after).takeWhile (· ≠ 10)).take (pathSize - 1)
    have hline : lineSetting (cstr (line ++ tail)) = lineSetting line := by
      have hmem : (0 : UInt8) ∉ line ++ tail := by
        intro h0
        rcases List.mem_append.1 h0 with h0 | h0
        · exact hzero (List.mem_append_right _ (textMode_subset
            ((List.takeWhile_subset _) (List.mem_of_mem_take h0))))
        · rcases htail with rfl | rfl <;> simp at h0
      rw [cstr_eq_self hmem, lineSetting_append]
      rcases htail with rfl | rfl
      · exact fun _ h => absurd h List.not_mem_nil
      · exact forall_mem_of_all (by decide)
    have hlast : textMode before = [] ∨ (textMode before).getLast? = some 10 :=
      hbefore.imp (fun hb => by rw [hb]; rfl) getLast?_textMode
    refine metadataOf_eq_none
      (((fgetsAll pathSize (textMode before)).map cstr).filterMap lineSetting)
      ((rest.map cstr).filterMap lineSetting) h.staged ?_
    rw [textMode_append hbefore, fgetsAll_append hlast, List.map_append, List.filterMap_append,
      show fgetsAll pathSize (textMode after) = _ from hcons, List.map_cons, List.filterMap_cons,
      hline, List.append_assoc]
    cases lineSetting line <;> rfl
  · unfold readArchiveMetadata
    split_ifs
    · rfl
    refine metadataOf_eq_none
      (if before = [] then [] else (splitLinesFrom [] before).filterMap lineSetting)
      ((match after.dropWhile fun c => !isLineEnd c with
        | [] => []
        | _ :: rest => splitLinesFrom [] rest).filterMap lineSetting) h.archived ?_
    have hafter : (splitLinesFrom [] after).filterMap lineSetting =
        (lineSetting (after.takeWhile fun c => !isLineEnd c)).toList ++
          (match after.dropWhile fun c => !isLineEnd c with
            | [] => []
            | _ :: rest => splitLinesFrom [] rest).filterMap lineSetting := by
      rw [splitLinesFrom_eq, List.nil_append, List.filterMap_cons]
      cases lineSetting (after.takeWhile fun c => !isLineEnd c) <;> rfl
    rw [cstr_eq_self hzero, filterMap_inspectLines le_rfl, List.append_assoc, ← hafter]
    rcases hbefore with rfl | hlast
    · rfl
    · have hne : before ≠ [] := by
        rintro rfl
        simp at hlast
      rw [splitLinesFrom_append after [] hlast, if_neg hne]

/-- **On a text that is plain as far as it is read the readers agree if and only if the architecture
fits.** -/
theorem readersAgree_iff {text : Bytes} (hzero : (0 : UInt8) ∉ text)
    (hsize : text.length ≤ 1024 * 1024) (hplain : PlainAsRead text) :
    ReadersAgree text ↔ ArchFits text := by
  rcases hplain with hplain | ⟨before, after, rfl, -, hbefore, hrefused⟩
  · exact hplain.agree_iff_archFits hzero hsize
  · obtain ⟨hstaged, harchived⟩ := hrefused.eq_none hzero hbefore
    refine iff_of_true ⟨?_, ?_⟩ ?_
    · rw [hstaged, harchived]
    · rw [archiveInspect, harchived]
      rfl
    · rw [ArchFits, hstaged]
      exact fun h => absurd h (by decide)

def sampleMetadata : Bytes := str "name=tool\nversion=1.0.0\narch=x64\n"

/-- A setting that is refused, and after it a line with a carriage return inside. -/
def refusedMetadata : Bytes := str "name=tool\ndebug=maybe\nversion=1\rarch=x64\n"

theorem readersAgree_iff_sample :
    ((readPackageMetadata sampleMetadata).isSome = true ∧
      (ReadersAgree sampleMetadata ↔ ArchFits sampleMetadata)) ∧
      ¬PlainText refusedMetadata ∧ (ReadersAgree refusedMetadata ↔ ArchFits refusedMetadata) := by
  have hplain : PlainText sampleMetadata := ⟨by decide +kernel, by decide +kernel⟩
  have hrefused : PlainAsRead refusedMetadata := by
    refine Or.inr ⟨str "name=tool\n", str "debug=maybe\nversion=1\rarch=x64\n", by decide,
      ⟨by decide +kernel, by decide +kernel⟩, by decide, ?_, ?_⟩
    · exact ⟨(str "debug", str "maybe"), by decide +kernel, by decide⟩
    · exact ⟨(str "debug", str "maybe"), by decide +kernel, by decide⟩
  refine ⟨⟨by decide, readersAgree_iff (by decide +kernel) (by decide +kernel) (Or.inl hplain)⟩, ?_,
    readersAgree_iff (by decide +kernel) (by decide +kernel) hrefused⟩
  exact fun h => absurd (h.crEndsLine (str "version=1\rarch=x64") (by decide +kernel))
    (by decide +kernel)

/-- A text with carriage returns for line ends: the reader of the archive takes it to be three
settings, the staged one to be a single one. -/
theorem readers_disagree :
    ¬∀ text : Bytes, (0 : UInt8) ∉ text → text.length ≤ 1024 * 1024 → ReadersAgree text := by
  intro h
  have hs := (h (str "name=tool" ++ 13 :: str "version=1.0.0" ++ 13 :: str "arch=x64")
    (by decide) (by decide)).same
  exact absurd hs (by decide)

end Wpm.Archive
