import Wpm.Archive.UpgradeAudit
import Wpm.Lib.Decimal
import Wpm.Lib.Fields
import Wpm.Lib.Numeral
import Wpm.Repository.Catalog
import Mathlib.Data.List.Perm.Basic

/-!
The audits of failed upgrades, as they are read back.

`recovery_record` takes a text for the record of a failure if every line has a key, each of the nine
fields is found once, and the values are those of a failure. A carriage return in a value starts a
new line (`otherLines`), so that what is read back may be the start of the value only.
-/

namespace Wpm.Recovery

open Wpm.Lib Wpm.Lib.CString Wpm.Lib.Fields Wpm.Archive
open Wpm.Operation (decimal)

/-! ### The reader -/

/-- The fields of the record. -/
inductive AuditField
  | name
  | arch
  | oldVersion
  | newVersion
  | archive
  | phase
  | status
  | verification
  | exitCode
  deriving DecidableEq

def AuditField.key : AuditField → Bytes
  | .name => str "name"
  | .arch => str "arch"
  | .oldVersion => str "old-version"
  | .newVersion => str "new-version"
  | .archive => str "archive"
  | .phase => str "phase"
  | .status => str "status"
  | .verification => str "verification"
  | .exitCode => str "exit-code"

def AuditField.all : List AuditField :=
  [.name, .arch, .oldVersion, .newVersion, .archive, .phase, .status, .verification, .exitCode]

/-- The field of a key. -/
def auditField (key : Bytes) : Option AuditField := AuditField.all.find? fun f => f.key = key

/-- The value of a digit. -/
def exitDigit (c : UInt8) : Option ℕ := if isDigit c then some (Decimal.digitValue c) else none

/-- The number of an exit code, of 32 bits. -/
def exitNumber (value : Bytes) : Option ℕ :=
  if value = [] then none else Numeral.readFrom exitDigit 10 0xffffffff 0 value

/-- The sizes of the buffers. -/
def AuditField.capacity : AuditField → ℕ
  | .name => 128
  | .arch => 16
  | .archive => 260
  | _ => 64

/-- The value is one for the field. -/
def AuditField.accepts (f : AuditField) (value : Bytes) : Bool :=
  match f with
  | .status | .verification => value = str "failed"
  | .exitCode => (exitNumber value).isSome
  | f => value ≠ [] ∧ value.length < f.capacity

/-- A `failure_record`. -/
structure FailureRecord where
  name : Bytes
  arch : Bytes
  oldVersion : Bytes
  newVersion : Bytes
  archive : Bytes
  phase : Bytes
  exitCode : ℕ
  deriving DecidableEq

/-- The checks after the last line. -/
def FailureRecord.valid (r : FailureRecord) : Bool :=
  Repository.knownArch r.arch && r.archive.all (fun c => c ∉ str "\\/:") &&
    r.archive ≠ str "." && r.archive ≠ str ".."

/-- The lines of an audit. -/
def auditLines (text : Bytes) : List Bytes := inspectLines text.length text

/-- `recovery_record`, of the bytes of the file. -/
def recoveryRecord (file : Bytes) : Option FailureRecord :=
  if file = [] ∨ 16385 ≤ file.length ∨ 0 ∈ file then none
  else do
    let fields ← readLines auditField AuditField.accepts (auditLines file) fun _ => none
    let name ← fields .name
    let arch ← fields .arch
    let oldVersion ← fields .oldVersion
    let newVersion ← fields .newVersion
    let archive ← fields .archive
    let phase ← fields .phase
    let _ ← fields .status
    let _ ← fields .verification
    let exitCode ← (fields .exitCode).bind exitNumber
    let r : FailureRecord := ⟨name, arch, oldVersion, newVersion, archive, phase, exitCode⟩
    if r.valid then some r else none

/-! ### The lines -/

/-- A value up to the end of its first line. -/
def firstLine (value : Bytes) : Bytes := value.takeWhile fun c => !isLineEnd c

/-- The lines that a value has after its first one. -/
def otherLines (value : Bytes) : List Bytes :=
  auditLines ((value.dropWhile fun c => !isLineEnd c).dropWhile isLineEnd)

lemma inspectLines_of_le {fuel : ℕ} {text : Bytes} (h : text.length ≤ fuel) :
    inspectLines fuel text = auditLines text := by
  induction hn : text.length using Nat.strong_induction_on generalizing fuel text with
  | _ n ih =>
    cases text with
    | nil => cases fuel <;> rfl
    | cons c text =>
      rw [List.length_cons] at h hn
      obtain ⟨fuel, rfl⟩ := Nat.exists_eq_succ_of_ne_zero (by omega : fuel ≠ 0)
      -- a turn takes at least a character, so that the rest has the fuel it needs
      have hrest : (((c :: text).dropWhile fun c => !isLineEnd c).dropWhile isLineEnd).length ≤
          text.length := by
        have hle := List.length_dropWhile_le isLineEnd ((c :: text).dropWhile fun c => !isLineEnd c)
        have hle' := List.length_dropWhile_le (fun c => !isLineEnd c) text
        by_cases hc : isLineEnd c = true
        · rw [List.dropWhile_cons_of_neg (by simp [hc]), List.dropWhile_cons_of_pos hc]
          exact List.length_dropWhile_le isLineEnd text
        · rw [List.dropWhile_cons_of_pos (by simp [hc])] at hle ⊢
          omega
      rw [auditLines, List.length_cons, Nat.succ_eq_add_one, inspectLines, inspectLines,
        if_neg (List.cons_ne_nil c text), if_neg (List.cons_ne_nil c text),
        ih _ (by omega) (by omega : _ ≤ fuel) rfl, ih _ (by omega) hrest rfl]

/-- The first line of a text, and those after it. -/
lemma auditLines_eq {text : Bytes} (h : text ≠ []) :
    auditLines text = firstLine text :: otherLines text := by
  cases text with
  | nil => exact absurd rfl h
  | cons c text =>
    have hle := List.length_dropWhile_le isLineEnd ((c :: text).dropWhile fun c => !isLineEnd c)
    have hle' := List.length_dropWhile_le (fun c => !isLineEnd c) (c :: text)
    rw [← @inspectLines_of_le ((c :: text).length + 1) _ (Nat.le_succ _), inspectLines, if_neg h,
      inspectLines_of_le (by omega)]
    rfl

/-- **A line feed ends the lines of a text**, whatever its last line ends with. -/
lemma auditLines_append : ∀ {s t : Bytes}, s ≠ [] → (t = [] ∨ isLineEnd (cur t) = false) →
    auditLines (s ++ 10 :: t) = auditLines s ++ auditLines t := by
  intro s t hs ht
  have hfeed : (10 :: t).dropWhile isLineEnd = t := by
    rw [List.dropWhile_cons_of_pos (by decide)]
    rcases ht with rfl | hcur
    · rfl
    · cases t with
      | nil => rfl
      | cons c t => exact List.dropWhile_cons_of_neg (by rw [← cur_cons c t, hcur]; decide)
  induction hn : s.length using Nat.strong_induction_on generalizing s with
  | _ n ih =>
    rw [auditLines_eq hs, auditLines_eq (List.append_ne_nil_of_left_ne_nil hs _), List.cons_append]
    unfold firstLine otherLines
    rw [List.takeWhile_append, List.dropWhile_append]
    have hstop : (10 :: t).takeWhile (fun c => !isLineEnd c) = [] :=
      List.takeWhile_cons_of_neg (by decide)
    have hstay : (10 :: t).dropWhile (fun c => !isLineEnd c) = 10 :: t :=
      List.dropWhile_cons_of_neg (by decide)
    cases hd : s.dropWhile fun c => !isLineEnd c with
    | nil =>
      -- the text is one line
      have htake : s.takeWhile (fun c => !isLineEnd c) = s := by
        have happend := List.takeWhile_append_dropWhile (p := fun c => !isLineEnd c) (l := s)
        rwa [hd, List.append_nil] at happend
      rw [htake, if_pos rfl, hstop, List.append_nil, List.isEmpty_nil, if_pos rfl, hstay, hfeed]
      rfl
    | cons e rest =>
      have hlen : (s.takeWhile fun c => !isLineEnd c).length ≠ s.length := by
        intro hlen
        have happend := List.takeWhile_append_dropWhile (p := fun c => !isLineEnd c) (l := s)
        have hsum := congrArg List.length happend
        rw [List.length_append, hd, List.length_cons] at hsum
        omega
      have he : isLineEnd e = true := by
        have hhead := List.head?_dropWhile_not (fun c => !isLineEnd c) s
        simpa [hd] using hhead
      have hlt : (e :: rest).length ≤ s.length := hd ▸ List.length_dropWhile_le _ s
      rw [List.length_cons] at hlt
      rw [if_neg hlen, List.isEmpty_cons, if_neg Bool.false_ne_true, List.dropWhile_append,
        List.dropWhile_cons_of_pos he]
      cases hr : rest.dropWhile isLineEnd with
      | nil =>
        rw [List.isEmpty_nil, if_pos rfl, hfeed]
        rfl
      | cons c rest' =>
        have hle : (c :: rest').length ≤ rest.length := hr ▸ List.length_dropWhile_le _ rest
        rw [List.isEmpty_cons, if_neg Bool.false_ne_true,
          ih (c :: rest').length (by omega) (List.cons_ne_nil c rest') rfl]

/-! ### The lines of an audit -/

/-- The line of a key, up to the end of its value's first line. -/
def mainLine (p : Bytes × Bytes) : Bytes := p.1 ++ ch '=' :: firstLine p.2

/-- A key is plain: it is not empty, and has no end of a line in it. -/
structure PlainKey (key : Bytes) : Prop where
  ne_nil : key ≠ []
  plain : ∀ c ∈ key, isLineEnd c = false
  key : ch '=' ∉ key

lemma PlainKey.lines {key : Bytes} (h : PlainKey key) (value : Bytes) :
    auditLines (key ++ ch '=' :: value) = mainLine (key, value) :: otherLines value := by
  have hkey : ∀ c ∈ key ++ [ch '='], (!isLineEnd c) = true := by
    intro c hc
    rcases List.mem_append.1 hc with hc | hc
    · rw [h.plain c hc]
      rfl
    · rw [List.mem_singleton.1 hc]
      decide
  have heq : key ++ ch '=' :: value = (key ++ [ch '=']) ++ value := by simp
  rw [auditLines_eq (List.append_ne_nil_of_left_ne_nil h.ne_nil _), heq]
  unfold firstLine otherLines
  rw [List.takeWhile_append_of_pos hkey, List.dropWhile_append_of_pos hkey]
  simp [mainLine, firstLine]

/-- **The lines of a text** of keys and values. -/
lemma auditLines_flatMap : ∀ {segments : List (Bytes × Bytes)}, (∀ p ∈ segments, PlainKey p.1) →
    auditLines (segments.flatMap fun p => p.1 ++ str "=" ++ p.2 ++ [10]) =
      segments.flatMap fun p => mainLine p :: otherLines p.2
  | [], _ => rfl
  | p :: segments, h => by
    have hp := h p List.mem_cons_self
    have hrest := auditLines_flatMap fun q hq => h q (List.mem_cons_of_mem p hq)
    have hhead : (segments.flatMap fun p => p.1 ++ str "=" ++ p.2 ++ [10]) = [] ∨
        isLineEnd (cur (segments.flatMap fun p => p.1 ++ str "=" ++ p.2 ++ [10])) = false := by
      cases segments with
      | nil => exact Or.inl rfl
      | cons q segments =>
        have hq := h q (List.mem_cons_of_mem p List.mem_cons_self)
        obtain ⟨c, key, hkey⟩ := List.exists_cons_of_ne_nil hq.ne_nil
        right
        rw [List.flatMap_cons, hkey]
        exact hq.plain c (hkey ▸ List.mem_cons_self)
    have hsign : str "=" = [ch '='] := rfl
    have heq : p.1 ++ str "=" ++ p.2 ++ [10] = (p.1 ++ ch '=' :: p.2) ++ [10] := by
      rw [hsign, List.append_assoc p.1, List.singleton_append]
    rw [List.flatMap_cons, List.flatMap_cons, heq, List.append_assoc, List.singleton_append,
      auditLines_append (List.append_ne_nil_of_left_ne_nil hp.ne_nil _) hhead, hp.lines, hrest]

/-- The entry of a line with a plain key. -/
lemma entry_mainLine {p : Bytes × Bytes} (h : PlainKey p.1) :
    entry auditField (mainLine p) = (auditField p.1).map fun field => (field, firstLine p.2) := by
  have hcut : cutAt (ch '=') (mainLine p) = some (p.1, firstLine p.2) :=
    cutAt_eq_some.2 ⟨rfl, h.key⟩
  rw [entry, hcut]
  rfl

lemma lines_failed {a : UpgradeAudit} (hfailed : a.failed = true) : a.lines =
    [(str "name", a.metadata.name), (str "arch", a.metadata.arch),
      (str "old-version", a.oldVersion), (str "new-version", a.metadata.version),
      (str "archive", a.archive),
      (str "signing-key", if a.signingKey ≠ [] then a.signingKey else str "unknown"),
      (str "verification", str "failed"), (str "status", str "failed"), (str "phase", a.phase),
      (str "exit-code", decimal a.exitCode.toNat)] := by
  rw [UpgradeAudit.lines, hfailed]
  rfl

lemma plainKey_lines {a : UpgradeAudit} (hfailed : a.failed = true) :
    ∀ p ∈ a.lines, PlainKey p.1 := by
  have hkeys : ∀ key ∈ a.lines.map Prod.fst,
      key ≠ [] ∧ (∀ c ∈ key, isLineEnd c = false) ∧ ch '=' ∉ key := by
    rw [lines_failed hfailed]
    show ∀ key ∈ [str "name", str "arch", str "old-version", str "new-version", str "archive",
      str "signing-key", str "verification", str "status", str "phase", str "exit-code"],
      key ≠ [] ∧ (∀ c ∈ key, isLineEnd c = false) ∧ ch '=' ∉ key
    decide +kernel
  intro p hp
  obtain ⟨hne, hplain, hsign⟩ := hkeys p.1 (List.mem_map_of_mem hp)
  exact ⟨hne, hplain, hsign⟩

/-- The entries that the lines of the keys make. -/
def mainEntries (a : UpgradeAudit) : List (AuditField × Bytes) :=
  [(.name, firstLine a.metadata.name), (.arch, firstLine a.metadata.arch),
    (.oldVersion, firstLine a.oldVersion), (.newVersion, firstLine a.metadata.version),
    (.archive, firstLine a.archive), (.verification, str "failed"), (.status, str "failed"),
    (.phase, firstLine a.phase), (.exitCode, firstLine (decimal a.exitCode.toNat))]

lemma filterMap_mainLine {a : UpgradeAudit} (hfailed : a.failed = true) :
    (a.lines.map mainLine).filterMap (entry auditField) = mainEntries a := by
  have hentry : ∀ p ∈ a.lines, (entry auditField ∘ mainLine) p =
      (auditField p.1).map fun field => (field, firstLine p.2) :=
    fun p hp => entry_mainLine (plainKey_lines hfailed p hp)
  rw [List.filterMap_map, List.filterMap_congr hentry, lines_failed hfailed]
  rfl

lemma nodup_mainEntries (a : UpgradeAudit) : ((mainEntries a).map Prod.fst).Nodup := by
  show List.Nodup [AuditField.name, .arch, .oldVersion, .newVersion, .archive, .verification,
    .status, .phase, .exitCode]
  decide

lemma mem_mainEntries (a : UpgradeAudit) (f : AuditField) : f ∈ (mainEntries a).map Prod.fst := by
  show f ∈ [AuditField.name, .arch, .oldVersion, .newVersion, .archive, .verification,
    .status, .phase, .exitCode]
  cases f <;> decide

/-! ### The exit code -/

/-- A number is printed as a numeral of it. -/
lemma writes_decimal (n : ℕ) : Numeral.Writes exitDigit 10 (decimal n) n := by
  have hdigit : ∀ d : Fin 10, exitDigit (ch (Nat.digitChar d)) = some (d : ℕ) := by decide
  induction n using Nat.strong_induction_on with
  | _ n ih =>
    rcases Nat.lt_or_ge n 10 with hlt | hge
    · have hprint : decimal n = [ch (Nat.digitChar n)] := by
        rw [decimal, Nat.toDigits_of_lt_base hlt]
        rfl
      refine ⟨by rw [hprint]; exact List.cons_ne_nil _ _, [n], ?_, ?_, ?_⟩
      · rw [hprint, List.map_singleton, List.map_singleton, hdigit ⟨n, hlt⟩]
      · intro d hd
        rwa [List.mem_singleton.1 hd]
      · exact (by simp [Numeral.value] : Numeral.value 10 0 [n] = n)
    · -- the last digit, behind the numeral of the rest
      obtain ⟨-, ds, hds, hbound, hvalue⟩ := ih (n / 10) (by omega)
      have hprint : decimal n = decimal (n / 10) ++ [ch (Nat.digitChar (n % 10))] := by
        rw [decimal, Nat.toDigits_of_base_le (by decide) hge, List.map_append]
        rfl
      refine ⟨by rw [hprint]; simp, ds ++ [n % 10], ?_, ?_, ?_⟩
      · rw [hprint, List.map_append, List.map_append, hds, List.map_singleton, List.map_singleton,
          hdigit ⟨n % 10, Nat.mod_lt n (by decide)⟩]
      · intro d hd
        rcases List.mem_append.1 hd with hd | hd
        · exact hbound d hd
        · rw [List.mem_singleton.1 hd]
          exact Nat.mod_lt n (by decide)
      · rw [Numeral.value, List.foldl_append]
        show Numeral.value 10 0 ds * 10 + n % 10 = n
        rw [hvalue]
        omega

/-- **An exit code is read back.** -/
lemma exitNumber_decimal (code : UInt32) : exitNumber (decimal code.toNat) = some code.toNat := by
  have hwrites := writes_decimal code.toNat
  have hlt := code.toNat_lt
  rw [exitNumber, if_neg hwrites.1, Numeral.readFrom_zero_eq_some (by decide) (by decide) hwrites.1]
  exact ⟨hwrites, by omega⟩

lemma mem_decimal {n : ℕ} {c : UInt8} (h : c ∈ decimal n) : isDigit c = true := by
  obtain ⟨-, ds, hds, -, -⟩ := writes_decimal n
  have hmem : exitDigit c ∈ (decimal n).map exitDigit := List.mem_map_of_mem h
  rw [hds] at hmem
  obtain ⟨d, -, hd⟩ := List.mem_map.1 hmem
  by_contra hno
  rw [exitDigit, if_neg hno] at hd
  exact absurd hd (Option.some_ne_none d)

/-- A value without the end of a line is one line. -/
lemma firstLine_eq_self {value : Bytes} (h : ∀ c ∈ value, isLineEnd c = false) :
    firstLine value = value ∧ otherLines value = [] := by
  have hall : ∀ c ∈ value, (!isLineEnd c) = true := fun c hc => by rw [h c hc]; rfl
  refine ⟨List.takeWhile_eq_self_iff.2 hall, ?_⟩
  rw [otherLines, List.dropWhile_eq_nil_iff.2 hall]
  rfl

lemma firstLine_decimal (n : ℕ) : firstLine (decimal n) = decimal n := by
  refine (firstLine_eq_self fun c hc => ?_).1
  have hdigit := Decimal.isDigit_iff.1 (mem_decimal hc)
  by_contra hend
  rw [Bool.not_eq_false, isLineEnd, decide_eq_true_eq] at hend
  rcases hend with rfl | rfl
  · exact absurd hdigit.1 (by decide)
  · exact absurd hdigit.1 (by decide)

/-! ### What is read back -/

/-- The record that an audit is read back as. -/
def readBack (a : UpgradeAudit) : FailureRecord :=
  ⟨firstLine a.metadata.name, firstLine a.metadata.arch, firstLine a.oldVersion,
    firstLine a.metadata.version, firstLine a.archive, firstLine a.phase, a.exitCode.toNat⟩

/-- The values of an audit start no line that is taken for a field, or that has no key. -/
def Harmless (value : Bytes) : Prop :=
  ∀ line ∈ otherLines value, ch '=' ∈ line ∧ entry auditField line = none

/-- The lines of an audit are those of its keys, and those that its values start. -/
lemma auditLines_perm {a : UpgradeAudit} (hfailed : a.failed = true) :
    (auditLines a.text).Perm (a.lines.map mainLine ++ a.lines.flatMap fun p => otherLines p.2) := by
  rw [UpgradeAudit.text, auditLines_flatMap (plainKey_lines hfailed)]
  exact (List.map_append_flatMap_perm a.lines mainLine fun p => otherLines p.2).symm

/-- **The lines of an audit are read** when its values start no other fields, and are acceptable. -/
lemma readLines_audit {a : UpgradeAudit} (hfailed : a.failed = true) :
    (∃ fields, readLines auditField AuditField.accepts (auditLines a.text) (fun _ => none) =
        some fields) ↔
      (∀ p ∈ a.lines, Harmless p.2) ∧ ∀ e ∈ mainEntries a, e.1.accepts e.2 = true := by
  have hperm := auditLines_perm hfailed
  have hentries := hperm.filterMap (entry auditField)
  rw [List.filterMap_append, filterMap_mainLine hfailed] at hentries
  rw [readLines_isSome_iff]
  constructor
  · rintro ⟨hkeys, hnodup, haccepts⟩
    have hnodup' := (hentries.map Prod.fst).nodup hnodup
    rw [List.map_append, List.nodup_append] at hnodup'
    refine ⟨fun p hp line hline => ?_, fun e he => ?_⟩
    · have hmem : line ∈ a.lines.flatMap fun p => otherLines p.2 :=
        List.mem_flatMap.2 ⟨p, hp, hline⟩
      refine ⟨hkeys line (hperm.mem_iff.2 (List.mem_append_right _ hmem)), ?_⟩
      cases hentry : entry auditField line with
      | none => rfl
      | some e =>
        -- the field is one that the audit has a line of its own for
        have hother := @List.mem_map_of_mem _ _ _ _ Prod.fst
          (List.mem_filterMap.2 ⟨line, hmem, hentry⟩)
        exact absurd rfl (hnodup'.2.2 _ (mem_mainEntries a e.1) _ hother)
    · exact (haccepts e (hentries.mem_iff.2 (List.mem_append_left _ he))).2
  · rintro ⟨hharmless, haccepts⟩
    have hothers : (a.lines.flatMap fun p => otherLines p.2).filterMap (entry auditField) = [] := by
      rw [List.filterMap_eq_nil_iff]
      intro line hline
      obtain ⟨p, hp, hline⟩ := List.mem_flatMap.1 hline
      exact (hharmless p hp line hline).2
    rw [hothers, List.append_nil] at hentries
    refine ⟨fun line hline => ?_, ?_, fun e he => ⟨rfl, haccepts e (hentries.mem_iff.1 he)⟩⟩
    · rcases List.mem_append.1 (hperm.mem_iff.1 hline) with hline | hline
      · obtain ⟨p, -, rfl⟩ := List.mem_map.1 hline
        exact List.mem_append_right _ List.mem_cons_self
      · obtain ⟨p, hp, hline⟩ := List.mem_flatMap.1 hline
        exact (hharmless p hp line hline).1
    · exact (hentries.map Prod.fst).nodup_iff.2 (nodup_mainEntries a)

/-- **What is read back of an audit**, and of which audits anything is. -/
theorem recoveryRecord_audit {a : UpgradeAudit} {r : FailureRecord} (hfailed : a.failed = true) :
    recoveryRecord a.text = some r ↔
      (a.text.length < 16385 ∧ 0 ∉ a.text) ∧ (∀ p ∈ a.lines, Harmless p.2) ∧
        (∀ e ∈ mainEntries a, e.1.accepts e.2 = true) ∧ (readBack a).valid = true ∧
          readBack a = r := by
  have hne : a.text ≠ [] := by
    rw [UpgradeAudit.text, lines_failed hfailed, List.flatMap_cons]
    exact List.append_ne_nil_of_left_ne_nil (List.append_ne_nil_of_right_ne_nil _
      (List.cons_ne_nil _ _)) _
  -- the record, once the lines are read
  have hrecord : ∀ {fields}, readLines auditField AuditField.accepts (auditLines a.text)
      (fun _ => none) = some fields →
        (recoveryRecord a.text = some r ↔ (a.text.length < 16385 ∧ 0 ∉ a.text) ∧
          (readBack a).valid = true ∧ readBack a = r) := by
    intro fields hfields
    have hfield : ∀ e ∈ mainEntries a, fields e.1 = some e.2 := by
      intro e he
      refine (readLines_entry hfields ?_).1
      have hentries := (auditLines_perm hfailed).filterMap (entry auditField)
      rw [List.filterMap_append, filterMap_mainLine hfailed] at hentries
      exact hentries.mem_iff.2 (List.mem_append_left _ he)
    simp only [mainEntries, List.forall_mem_cons] at hfield
    obtain ⟨hname, harch, hold, hnew, harchive, hverification, hstatus, hphase, hexit, -⟩ := hfield
    unfold recoveryRecord
    rw [hfields]
    simp only [Option.bind_eq_bind, Option.bind_some, hname, harch, hold, hnew, harchive,
      hverification, hstatus, hphase, hexit, firstLine_decimal, exitNumber_decimal]
    by_cases hsize : a.text.length < 16385 ∧ 0 ∉ a.text
    · rw [if_neg (by rintro (h | h | h); exacts [hne h, absurd hsize.1 (by omega), hsize.2 h])]
      show (if (readBack a).valid = true then some (readBack a) else none) = some r ↔ _
      by_cases hvalid : (readBack a).valid = true
      · rw [if_pos hvalid]
        exact ⟨fun h => ⟨hsize, hvalid, Option.some.inj h⟩, fun h => congrArg some h.2.2⟩
      · rw [if_neg hvalid]
        exact ⟨fun h => absurd h.symm (Option.some_ne_none r), fun h => absurd h.2.1 hvalid⟩
    · have hsize' : a.text = [] ∨ 16385 ≤ a.text.length ∨ 0 ∈ a.text := by
        rw [not_and_or, not_lt, not_not] at hsize
        exact Or.inr hsize
      rw [if_pos hsize']
      exact ⟨fun h => absurd h.symm (Option.some_ne_none r), fun h => absurd h.1 hsize⟩
  constructor
  · intro h
    have hread : ∃ fields, readLines auditField AuditField.accepts (auditLines a.text)
        (fun _ => none) = some fields := by
      cases hfields : readLines auditField AuditField.accepts (auditLines a.text)
          (fun _ => none) with
      | some fields => exact ⟨fields, rfl⟩
      | none =>
        rw [recoveryRecord, hfields, ite_eq_iff] at h
        obtain ⟨-, h⟩ | ⟨-, h⟩ := h
        · exact absurd h.symm (Option.some_ne_none r)
        · exact absurd h.symm (Option.some_ne_none r)
    obtain ⟨fields, hfields⟩ := hread
    obtain ⟨hsize, hvalid, hr⟩ := (hrecord hfields).1 h
    obtain ⟨hharmless, haccepts⟩ := (readLines_audit hfailed).1 ⟨fields, hfields⟩
    exact ⟨hsize, hharmless, haccepts, hvalid, hr⟩
  · rintro ⟨hsize, hharmless, haccepts, hvalid, hr⟩
    obtain ⟨fields, hfields⟩ := (readLines_audit hfailed).2 ⟨hharmless, haccepts⟩
    exact (hrecord hfields).2 ⟨hsize, hvalid, hr⟩

/-! ### The identity of a package -/

/-- A text without null characters and ends of lines. -/
def Plain (value : Bytes) : Prop := ∀ c ∈ value, c ≠ 0 ∧ isLineEnd c = false

instance (value : Bytes) : Decidable (Plain value) :=
  inferInstanceAs (Decidable (∀ c ∈ value, c ≠ 0 ∧ isLineEnd c = false))

lemma Plain.lines {value : Bytes} (h : Plain value) :
    firstLine value = value ∧ otherLines value = [] :=
  firstLine_eq_self fun c hc => (h c hc).2

lemma Plain.harmless {value : Bytes} (h : Plain value) : Harmless value := by
  intro line hline
  rw [h.lines.2] at hline
  exact absurd hline List.not_mem_nil

/-- Letter case makes no difference. -/
lemma Plain.of_fold {value value' : Bytes} (h : Plain value) (hfold : fold value = fold value') :
    Plain value' := by
  have hlower : ∀ c : Fin 256, (UInt8.ofFin c ≠ 0 ∧ isLineEnd (UInt8.ofFin c) = false) ↔
      (lower (UInt8.ofFin c) ≠ 0 ∧ isLineEnd (lower (UInt8.ofFin c)) = false) := by decide +kernel
  intro c hc
  have hmem : lower c ∈ fold value := hfold ▸ List.mem_map_of_mem hc
  obtain ⟨d, hd, heq⟩ := List.mem_map.1 hmem
  have hplain := (hlower d.toFin).1 (h d hd)
  exact (hlower c.toFin).2 (heq ▸ hplain)

lemma plain_of_safe {value : Bytes} (h : isSafeMetadataValue value = true) : Plain value := by
  have hsafe : ∀ c : Fin 256, (isAlnum (UInt8.ofFin c) || UInt8.ofFin c = ch '-' ||
      UInt8.ofFin c = ch '_' || UInt8.ofFin c = ch '.' || UInt8.ofFin c = ch '+') = true →
        UInt8.ofFin c ≠ 0 ∧ isLineEnd (UInt8.ofFin c) = false := by decide +kernel
  rw [isSafeMetadataValue, Bool.and_eq_true, List.all_eq_true] at h
  exact fun c hc => hsafe c.toFin (h.2 c hc)

/-- What is known of the identity that `wpm_archive_inspect` gives. -/
structure Inspected (info : Operation.PackageInfo) : Prop where
  name : Plain info.name ∧ info.name ≠ [] ∧ info.name.length < 128
  version : Plain info.version ∧ info.version ≠ [] ∧ info.version.length < 64
  arch : Plain info.arch

lemma inspected_of {entry : Bytes} {info : Operation.PackageInfo}
    (h : archiveInspect entry = some info) : Inspected info := by
  obtain ⟨m, hm, rfl⟩ := Option.map_eq_some_iff.1 h
  rw [readArchiveMetadata, ite_eq_iff] at hm
  obtain ⟨-, hm⟩ | ⟨-, hm⟩ := hm
  · exact absurd hm.symm (Option.some_ne_none m)
  · rw [metadataOf, Option.bind_eq_bind, Option.bind_eq_some_iff] at hm
    obtain ⟨m', hread, hm⟩ := hm
    rw [ite_eq_iff] at hm
    obtain ⟨hsafe, hm⟩ | ⟨-, hm⟩ := hm
    · obtain rfl := Option.some.inj hm
      simp only [Bool.and_eq_true] at hsafe
      obtain ⟨⟨hname, hversion⟩, harch⟩ := hsafe
      have hfits : m'.Fits := by
        have hempty : PackageMetadata.Fits ⟨[], [], [], false⟩ := ⟨by simp, by simp, by simp⟩
        have hbuffers := hempty.bufferSettings (inspectLines (cstr entry).length (cstr entry))
        rwa [bufferSettings_eq_some.2 hread] at hbuffers
      have hne : ∀ {value : Bytes}, isSafeMetadataValue value = true → value ≠ [] := by
        rintro _ hsafe rfl
        exact absurd hsafe (by decide)
      refine ⟨?_, ?_, ?_⟩
      · simp only [Operation.copyText, if_pos hfits.name]
        exact ⟨plain_of_safe hname, hne hname, hfits.name⟩
      · simp only [Operation.copyText, if_pos hfits.version]
        exact ⟨plain_of_safe hversion, hne hversion, hfits.version⟩
      · simp only [Operation.copyText]
        split_ifs
        · exact plain_of_safe harch
        · exact fun c hc => absurd hc List.not_mem_nil
    · exact absurd hm.symm (Option.some_ne_none m)

/-! ### Failed upgrades -/

/-- The name of a file, as the file system has them. -/
structure IsFileName (name : Bytes) : Prop where
  ne_nil : name ≠ []
  dot : name ≠ str "."
  dots : name ≠ str ".."
  chars : ∀ c ∈ name, 32 ≤ c ∧ c ∉ str "\\/:"

/-- **How `wpm_repo_upgrade` calls for an upgrade**: the archive has been inspected and is that of
the candidate, and the old version is that of a package that has been inspected too. -/
structure Called (u : Upgrade) : Prop where
  candidate : ∃ entry info, archiveInspect entry = some info ∧
    fold info.name = fold u.expected.name ∧ info.version = u.version ∧ fold info.arch = fold u.arch
  installed : ∃ entry info, archiveInspect entry = some info ∧ info.version = u.oldVersion
  archive : IsFileName u.archive

/-- The record is that of the attempted upgrade, with the phase and the exit code of its failure. -/
structure Matches (u : Upgrade) (a : UpgradeAudit) (r : FailureRecord) : Prop where
  name : r.name = u.expected.name
  arch : r.arch = u.arch
  oldVersion : r.oldVersion = u.oldVersion
  newVersion : r.newVersion = u.version
  archive : r.archive = u.archive
  phase : r.phase = a.phase
  exitCode : r.exitCode = a.exitCode.toNat

/-- **The audit of a failure is read back** as the record of the attempted upgrade, if there is one. -/
def RoundTrips (u : Upgrade) (s : UpgradeSteps) (h : AuditCalls) : Prop :=
  ∀ a text, u.failureAudit s = some a → a.write h = some text →
    ∃ r, recoveryRecord text = some r ∧ Matches u a r

/-- A value of the metadata shows what is expected: its first line is that, and no other line of it
is taken for a field. -/
structure Shows (value expected : Bytes) : Prop where
  noNull : 0 ∉ value
  first : firstLine value = expected
  harmless : Harmless value

/-- What it takes for the audit to be read back: the architecture is a known one, the name of the
archive fits, and the `package.txt` of the stage, if it comes to be read, can be opened and shows the
identity that is asked for in what it sets last, before a setting that is refused. -/
structure Recordable (u : Upgrade) (s : UpgradeSteps) : Prop where
  arch : Repository.knownArch u.arch = true
  archive : u.archive.length < 260
  identity : s.reads = true → ∃ file, s.staged = some file ∧
    Shows (lastGiven (str "name") (settingsRead file)) u.expected.name ∧
      Shows (lastGiven (str "version") (settingsRead file)) u.version ∧
      Shows (lastGiven (str "arch") (settingsRead file)) u.arch

variable {u : Upgrade} {s : UpgradeSteps} {a : UpgradeAudit} {h : AuditCalls}

lemma IsFileName.plain {name : Bytes} (h : IsFileName name) : Plain name := by
  have hchar : ∀ c : Fin 256, (32 : UInt8) ≤ UInt8.ofFin c →
      UInt8.ofFin c ≠ 0 ∧ isLineEnd (UInt8.ofFin c) = false := by decide +kernel
  exact fun c hc => hchar c.toFin (h.chars c hc).1

lemma Plain.shows {value : Bytes} (h : Plain value) : Shows value value where
  noNull := fun h0 => (h 0 h0).1 rfl
  first := h.lines.1
  harmless := h.harmless

/-- What is known of the texts of the attempted upgrade. -/
structure Called.Texts (u : Upgrade) : Prop where
  name : Plain u.expected.name ∧ u.expected.name ≠ [] ∧ u.expected.name.length < 128
  version : Plain u.version ∧ u.version ≠ [] ∧ u.version.length < 64
  arch : Plain u.arch
  oldVersion : Plain u.oldVersion ∧ u.oldVersion ≠ [] ∧ u.oldVersion.length < 64

lemma Called.texts (h : Called u) : Called.Texts u := by
  obtain ⟨entry, info, hinspect, hname, hversion, harch⟩ := h.candidate
  obtain ⟨entry', info', hinspect', hold⟩ := h.installed
  have hinfo := inspected_of hinspect
  have hinfo' := inspected_of hinspect'
  have hlength : info.name.length = u.expected.name.length := by
    rw [← length_fold, hname, length_fold]
  refine ⟨⟨hinfo.name.1.of_fold hname, ?_, hlength ▸ hinfo.name.2.2⟩, hversion ▸ hinfo.version,
    hinfo.arch.of_fold harch, hold ▸ hinfo'.version⟩
  intro hnil
  rw [hnil] at hlength
  exact hinfo.name.2.1 (List.eq_nil_of_length_eq_zero hlength)

/-- The buffers show the identity that is asked for when a step fails. -/
lemma Recordable.shows (h : Recordable u s) (hcalled : Called u) :
    Shows (u.buffers s).name u.expected.name ∧ Shows (u.buffers s).version u.version ∧
      Shows (u.buffers s).arch u.arch := by
  have htexts := hcalled.texts
  rw [Upgrade.buffers]
  split_ifs with hreads
  · obtain ⟨file, hfile, hshows⟩ := h.identity hreads
    obtain ⟨hname, hversion, harch⟩ := stagedMetadata_fields file s.readError
    rw [hfile, hname, hversion, harch]
    exact hshows
  · exact ⟨htexts.name.1.shows, htexts.version.1.shows, htexts.arch.shows⟩

lemma buffers_fits (h : Called u) (harch : Repository.knownArch u.arch = true) :
    (u.buffers s).Fits := by
  have htexts := h.texts
  rw [Upgrade.buffers]
  split_ifs
  · exact fits_stagedMetadata s.staged s.readError
  · refine ⟨htexts.name.2.2, htexts.version.2.2, ?_⟩
    have hlength : (fold u.arch).length ≤ 5 := by
      simp only [Repository.knownArch, decide_eq_true_eq] at harch
      obtain h | h | h | h := harch <;> rw [h] <;> decide
    rw [length_fold] at hlength
    show u.arch.length < 64
    omega

lemma plain_signingKey (key : SigningKey) : Plain key.text ∧ key.text.length ≤ 64 := by
  have hhex : ∀ c ∈ str "0123456789abcdef", c ≠ 0 ∧ isLineEnd c = false := by decide +kernel
  obtain h | ⟨hlength, hchars⟩ := key.valid
  · rw [h]
    decide +kernel
  · exact ⟨fun c hc => hhex c (hchars c hc), hlength.le⟩

lemma failurePhases_spec : ∀ phase ∈ failurePhases,
    Plain phase ∧ phase ≠ [] ∧ phase.length < 64 := by decide +kernel

/-- The values in an audit have no null character, are harmless, and are not too long. -/
structure GoodValue (value : Bytes) : Prop where
  noNull : 0 ∉ value
  harmless : Harmless value
  length : value.length < 260

lemma Plain.good {value : Bytes} (h : Plain value) (hlength : value.length < 260) :
    GoodValue value := ⟨h.shows.noNull, h.harmless, hlength⟩

lemma goodValue_lines (hof : a.Of u s) (hcalled : Called u) (h : Recordable u s) :
    ∀ p ∈ a.lines, GoodValue p.2 := by
  have htexts := hcalled.texts
  obtain ⟨hname, hversion, harch⟩ := h.shows hcalled
  have hfits := @buffers_fits u s hcalled h.arch
  have hphase := failurePhases_spec a.phase hof.phase
  have hcode : Plain (decimal a.exitCode.toNat) ∧ (decimal a.exitCode.toNat).length < 260 := by
    constructor
    · have hdigit : ∀ c : Fin 256, isDigit (UInt8.ofFin c) = true →
          UInt8.ofFin c ≠ 0 ∧ isLineEnd (UInt8.ofFin c) = false := by decide +kernel
      exact fun c hc => hdigit c.toFin (mem_decimal hc)
    · rw [decimal, List.length_map]
      have hlt := a.exitCode.toNat_lt
      have hle := (@Nat.length_toDigits_le_iff 10 a.exitCode.toNat 10 (by decide)
        (by decide)).2 (by omega)
      omega
  have hkey : Plain (if a.signingKey ≠ [] then a.signingKey else str "unknown") ∧
      (if a.signingKey ≠ [] then a.signingKey else str "unknown").length < 260 := by
    obtain hnil | ⟨key, hkey⟩ := hof.signingKey
    · rw [hnil, if_neg (by simp)]
      decide +kernel
    · rw [hkey]
      have hplain := plain_signingKey key
      split_ifs
      · exact ⟨hplain.1, by omega⟩
      · decide +kernel
  rw [lines_failed hof.failed, hof.metadata, hof.oldVersion, hof.archive]
  simp only [List.forall_mem_cons]
  refine ⟨⟨hname.noNull, hname.harmless, ?_⟩, ⟨harch.noNull, harch.harmless, ?_⟩,
    htexts.oldVersion.1.good ?_, ⟨hversion.noNull, hversion.harmless, ?_⟩,
    hcalled.archive.plain.good h.archive, hkey.1.good hkey.2, Plain.good (by decide +kernel)
      (by decide +kernel), Plain.good (by decide +kernel) (by decide +kernel),
    hphase.1.good ?_, hcode.1.good hcode.2, fun _ h => absurd h List.not_mem_nil⟩
  · have := hfits.name
    omega
  · have := hfits.arch
    omega
  · have := htexts.oldVersion.2.2
    omega
  · have := hfits.version
    omega
  · have := hphase.2.2
    omega

/-- An audit of good values is a text that the reader has room for. -/
lemma text_of_goodValue (hfailed : a.failed = true) (h : ∀ p ∈ a.lines, GoodValue p.2) :
    a.text.length < 16385 ∧ 0 ∉ a.text := by
  have hkeys : ∀ key ∈ a.lines.map Prod.fst, key.length ≤ 12 ∧ 0 ∉ key := by
    rw [lines_failed hfailed]
    show ∀ key ∈ [str "name", str "arch", str "old-version", str "new-version", str "archive",
      str "signing-key", str "verification", str "status", str "phase", str "exit-code"],
      key.length ≤ 12 ∧ 0 ∉ key
    decide
  have hcount : a.lines.length = 10 := by rw [lines_failed hfailed]; rfl
  have hsign : str "=" = [ch '='] := rfl
  have hone : (str "=").length = 1 := by decide
  constructor
  · have hle : ∀ l : List (Bytes × Bytes), (∀ p ∈ l, p ∈ a.lines) →
        (l.flatMap fun p => p.1 ++ str "=" ++ p.2 ++ [10]).length ≤ l.length * 300 := by
      intro l
      induction l with
      | nil => exact fun _ => le_rfl
      | cons p l ih =>
        intro hl
        have hp := hl p List.mem_cons_self
        have hkey := (hkeys p.1 (List.mem_map_of_mem hp)).1
        have hvalue := (h p hp).length
        have hrest := ih fun q hq => hl q (List.mem_cons_of_mem p hq)
        rw [List.flatMap_cons, List.length_append, List.length_cons, List.length_append,
          List.length_append, List.length_append, List.length_singleton, hone]
        omega
    have := hle a.lines fun _ hp => hp
    rw [UpgradeAudit.text]
    omega
  · rw [UpgradeAudit.text, List.mem_flatMap]
    rintro ⟨p, hp, h0⟩
    rw [hsign, List.mem_append, List.mem_append, List.mem_append] at h0
    obtain ((h0 | h0) | h0) | h0 := h0
    · exact (hkeys p.1 (List.mem_map_of_mem hp)).2 h0
    · exact absurd h0 (by decide)
    · exact (h p hp).noNull h0
    · exact absurd h0 (by decide)

/-- An audit that is read back as the record of the attempted upgrade is that of a recordable one. -/
lemma recordable_of_record {u : Upgrade} {s : UpgradeSteps} {a : UpgradeAudit} {r : FailureRecord}
    (hcalled : Called u) (haudit : u.failureAudit s = some a)
    (hrecord : recoveryRecord a.text = some r) (hmatches : Matches u a r) : Recordable u s := by
  have hof := failureAudit_of haudit
  obtain ⟨hsize, hharmless, haccepts, hvalid, rfl⟩ := (recoveryRecord_audit hof.failed).1 hrecord
  have hlines := hharmless
  rw [lines_failed hof.failed] at hlines
  simp only [List.forall_mem_cons] at hlines
  simp only [mainEntries, List.forall_mem_cons] at haccepts
  obtain ⟨hname, harch, -, hversion, -⟩ := hlines
  obtain ⟨-, -, -, -, harchive, -⟩ := haccepts
  have hnull : ∀ p ∈ a.lines, 0 ∉ p.2 := by
    intro p hp h0
    refine hsize.2 (List.mem_flatMap.2 ⟨p, hp, ?_⟩)
    exact List.mem_append_left _ (List.mem_append_right _ h0)
  rw [lines_failed hof.failed] at hnull
  simp only [List.forall_mem_cons] at hnull
  obtain ⟨hname0, harch0, -, hversion0, -⟩ := hnull
  refine ⟨?_, ?_, fun hreads => ?_⟩
  · simp only [FailureRecord.valid, Bool.and_eq_true] at hvalid
    exact hmatches.arch ▸ hvalid.1.1.1
  · have hlength : firstLine a.archive ≠ [] ∧ (firstLine a.archive).length < 260 :=
      of_decide_eq_true harchive
    have heq : firstLine a.archive = u.archive := hmatches.archive
    exact heq ▸ hlength.2
  · have hbuffers : a.metadata = (stagedMetadata s.staged s.readError).2 := by
      rw [hof.metadata, Upgrade.buffers, if_pos hreads]
    obtain ⟨file, hfile⟩ : ∃ file, s.staged = some file := by
      rw [← Option.ne_none_iff_exists']
      intro hnone
      rw [hnone] at hbuffers
      have hempty : firstLine a.metadata.name = u.expected.name := hmatches.name
      rw [hbuffers] at hempty
      exact hcalled.texts.name.2.1 hempty.symm
    obtain ⟨hnamed, hversioned, harched⟩ := stagedMetadata_fields file s.readError
    refine ⟨file, hfile, ?_⟩
    rw [hfile] at hbuffers
    rw [← hnamed, ← hversioned, ← harched, ← hbuffers]
    exact ⟨⟨hname0, hmatches.name, hname⟩, ⟨hversion0, hmatches.newVersion, hversion⟩,
      ⟨harch0, hmatches.arch, harch⟩⟩

/-- The audit of a recordable upgrade is read back. -/
lemma record_of_recordable {u : Upgrade} {s : UpgradeSteps} {a : UpgradeAudit} (hcalled : Called u)
    (haudit : u.failureAudit s = some a) (hrecordable : Recordable u s) :
    ∃ r, recoveryRecord a.text = some r ∧ Matches u a r := by
  have htexts := hcalled.texts
  have hof := failureAudit_of haudit
  have hgood := goodValue_lines hof hcalled hrecordable
  obtain ⟨hname, hversion, harch⟩ := hrecordable.shows hcalled
  have hphase := failurePhases_spec a.phase hof.phase
  have hback : readBack a = ⟨u.expected.name, u.arch, u.oldVersion, u.version, u.archive,
      a.phase, a.exitCode.toNat⟩ := by
    rw [readBack, hof.metadata, hof.oldVersion, hof.archive, hname.first, hversion.first,
      harch.first, htexts.oldVersion.1.lines.1, hcalled.archive.plain.lines.1,
      hphase.1.lines.1]
  have hfew : u.arch ≠ [] ∧ u.arch.length < 16 := by
    have harch := hrecordable.arch
    simp only [Repository.knownArch, decide_eq_true_eq] at harch
    rw [← length_fold u.arch, ne_eq, ← List.length_eq_zero_iff, ← length_fold u.arch]
    obtain h | h | h | h := harch <;> rw [h] <;> decide
  have haccepts : ∀ e ∈ mainEntries a, e.1.accepts e.2 = true := by
    rw [mainEntries, hof.metadata, hof.oldVersion, hof.archive, hname.first, hversion.first,
      harch.first, htexts.oldVersion.1.lines.1, hcalled.archive.plain.lines.1,
      hphase.1.lines.1, firstLine_decimal]
    simp only [List.forall_mem_cons]
    refine ⟨decide_eq_true htexts.name.2, decide_eq_true hfew,
      decide_eq_true htexts.oldVersion.2, decide_eq_true htexts.version.2,
      decide_eq_true ⟨hcalled.archive.ne_nil, hrecordable.archive⟩, by decide, by decide,
      decide_eq_true hphase.2, ?_, fun _ h => absurd h List.not_mem_nil⟩
    show (exitNumber (decimal a.exitCode.toNat)).isSome = true
    rw [exitNumber_decimal]
    rfl
  have hvalid : (readBack a).valid = true := by
    rw [hback, FailureRecord.valid]
    simp only [Bool.and_eq_true, decide_eq_true_eq, List.all_eq_true]
    exact ⟨⟨⟨hrecordable.arch, fun c hc => (hcalled.archive.chars c hc).2⟩, hcalled.archive.dot⟩,
      hcalled.archive.dots⟩
  refine ⟨readBack a, (recoveryRecord_audit hof.failed).2
    ⟨text_of_goodValue hof.failed hgood, fun p hp => (hgood p hp).harmless, haccepts, hvalid,
      rfl⟩, ?_⟩
  rw [hback]
  exact ⟨rfl, rfl, rfl, rfl, rfl, rfl, rfl⟩

/-- **Failed-upgrade audits are read back** as the records of the attempted upgrades, where all of an
audit arrives in its file, exactly when there is none, or when the architecture is known, the name of
the archive fits, and the `package.txt` of the stage, if it comes to be read, shows the identity that
is asked for. -/
theorem audit_roundTrips_iff (u : Upgrade) (s : UpgradeSteps) (h : AuditCalls) (hcalled : Called u)
    (harrives : ∀ a, u.failureAudit s = some a → h.arrives a.text = a.text) :
    RoundTrips u s h ↔
      (∀ a, u.failureAudit s = some a → h.opens a.metadata.name = false) ∨ Recordable u s := by
  constructor
  · intro hback
    by_cases hwritten : ∀ a, u.failureAudit s = some a → h.opens a.metadata.name = false
    · exact Or.inl hwritten
    · push Not at hwritten
      obtain ⟨a, haudit, hopens⟩ := hwritten
      rw [Bool.ne_false_iff] at hopens
      have hwrite : a.write h = some a.text := by
        rw [UpgradeAudit.write, if_pos hopens, harrives a haudit]
      obtain ⟨r, hrecord, hmatches⟩ := hback a a.text haudit hwrite
      exact Or.inr (recordable_of_record hcalled haudit hrecord hmatches)
  · rintro hrecordable a text haudit hwrite
    rw [UpgradeAudit.write] at hwrite
    split_ifs at hwrite with hopens
    obtain rfl := Option.some.inj hwrite
    rw [harrives a haudit]
    obtain hnone | hrecordable := hrecordable
    · rw [hnone a haudit] at hopens
      exact absurd hopens Bool.false_ne_true
    · exact record_of_recordable hcalled haudit hrecordable

/-- A package of an architecture, and an upgrade to it. -/
def sampleUpgrade (arch : Bytes) : Upgrade :=
  ⟨false, str "tool", str "1.1.0", arch, str "1.0.0", str "tool-" ++ arch ++ str "-1.1.0.zip"⟩

/-- The metadata of the package. -/
def sampleMetadata (arch : Bytes) : Bytes :=
  str "name=tool\nversion=1.1.0\narch=" ++ arch ++ str "\n"

/-- The steps go well, up to the install script, which exits with 3, if the staged metadata can be
read. -/
def sampleSteps (staged : Option Bytes) : UpgradeSteps where
  extractStarts := true
  extracts := true
  validateStarts := true
  signature := some ⟨str "unsigned", Or.inl rfl⟩
  index := true
  staged
  readError := false
  executable := true
  compatible := true
  validated := true
  script := some 3
  retainStarts := true
  retains := true

/-- Audits are written. -/
def sampleCalls : AuditCalls := ⟨fun _ => true, id⟩

lemma sampleUpgrade_called {arch : Bytes}
    (h : archiveInspect (sampleMetadata arch) = some ⟨str "tool", str "1.1.0", arch⟩)
    (hname : IsFileName (str "tool-" ++ arch ++ str "-1.1.0.zip")) :
    Called (sampleUpgrade arch) where
  candidate := ⟨_, _, h, rfl, rfl, rfl⟩
  installed := ⟨str "name=tool\nversion=1.0.0\narch=x64\n", ⟨str "tool", str "1.0.0", str "x64"⟩,
    by decide, rfl⟩
  archive := hname

lemma sampleUpgrade_called_x64 : Called (sampleUpgrade (str "x64")) :=
  sampleUpgrade_called (by decide +kernel)
    ⟨by decide +kernel, by decide +kernel, by decide +kernel, by decide +kernel⟩

theorem audit_roundTrips_iff_sample : RoundTrips (sampleUpgrade (str "x64"))
    (sampleSteps (some (sampleMetadata (str "x64")))) sampleCalls :=
  (audit_roundTrips_iff _ _ _ sampleUpgrade_called_x64 fun _ _ => rfl).2
    (Or.inr ⟨by decide +kernel, by decide +kernel, fun _ => ⟨_, rfl,
      ⟨by decide +kernel, by decide +kernel, Plain.harmless (by decide +kernel)⟩,
      ⟨by decide +kernel, by decide +kernel, Plain.harmless (by decide +kernel)⟩,
      ⟨by decide +kernel, by decide +kernel, Plain.harmless (by decide +kernel)⟩⟩⟩)

/-- **Failures whose audits are not read back**: the staged metadata cannot be opened, after the
buffers were emptied for it, or the architecture is not one of those that the reader of the audits
knows. -/
theorem audit_not_read :
    (Called (sampleUpgrade (str "x64")) ∧
        ¬RoundTrips (sampleUpgrade (str "x64")) (sampleSteps none) sampleCalls) ∧
      Called (sampleUpgrade (str "arm")) ∧ ¬RoundTrips (sampleUpgrade (str "arm"))
        (sampleSteps (some (sampleMetadata (str "arm")))) sampleCalls := by
  have hlost : ∀ {u : Upgrade} {s : UpgradeSteps} {a : UpgradeAudit}, u.failureAudit s = some a →
      recoveryRecord a.text = none → ¬RoundTrips u s sampleCalls := by
    intro u s a haudit hnone h
    obtain ⟨r, hr, -⟩ := h a a.text haudit rfl
    exact absurd (hnone.symm.trans hr).symm (Option.some_ne_none r)
  refine ⟨⟨sampleUpgrade_called_x64, ?_⟩, sampleUpgrade_called (by decide +kernel)
    ⟨by decide +kernel, by decide +kernel, by decide +kernel, by decide +kernel⟩, ?_⟩
  · have haudit : (sampleUpgrade (str "x64")).failureAudit (sampleSteps none) =
        some ⟨⟨[], [], [], false⟩, str "1.0.0", str "tool-x64-1.1.0.zip", str "unsigned", true,
          str "metadata", 0⟩ := by
      decide +kernel
    exact hlost haudit (by decide +kernel)
  · have haudit : (sampleUpgrade (str "arm")).failureAudit
        (sampleSteps (some (sampleMetadata (str "arm")))) = some ⟨⟨str "tool", str "1.1.0",
          str "arm", false⟩, str "1.0.0", str "tool-arm-1.1.0.zip", str "unsigned", true,
            str "install-script", 3⟩ := by
      decide +kernel
    exact hlost haudit (by decide +kernel)

end Wpm.Recovery
