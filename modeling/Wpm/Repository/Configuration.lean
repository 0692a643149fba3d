import Wpm.Lib.Decimal
import Wpm.Repository.Links

/-!
The configuration of the repositories, and how `rewrite` changes it.

`rewrite` copies the lines of `repositories.txt` to a temporary file, with the lines for one locator
left out or written anew, and moves the temporary file over the old one. A line is here what the
readers of the file take for one: what one call of `fgets` delivers, up to its first null character.
-/

namespace Wpm.Repository

open Wpm.Lib Wpm.Lib.CString Wpm.Lib.Text Wpm.Lib.FilePath
open Wpm.Archive (pathSize)

/-- `sizeof(line)`. -/
def configLineSize : ℕ := pathSize + 32

/-- What `write_entry` prints. -/
def entryLine (priority : ℤ) (url : Bytes) (allowHttp : Bool) : Bytes :=
  Decimal.printInt priority ++ 9 :: url ++
    (if allowHttp then str "\tallow-insecure-http=true" else []) ++ [10]

/-- What is asked of `rewrite`. -/
structure Change where
  wanted : Bytes
  priority : ℤ
  allowHttp : Bool
  remove : Bool
  deriving DecidableEq

/-- The line that is written for the locator. -/
def Change.entry (change : Change) : Bytes :=
  entryLine change.priority change.wanted change.allowHttp

/-- The line is for the locator. -/
def Change.concerns (change : Change) (line : Bytes) : Bool :=
  match parseEntry line with
  | none => false
  | some (_, url, _) => fold url = fold change.wanted

/-- `found`. -/
def Change.found (change : Change) (lines : List Bytes) : Bool := lines.any change.concerns

/-- What is written: the lines of the old file, with those for the locator written anew or left
out, and a line for the locator behind them if there was none. -/
def Change.apply (change : Change) (lines : List Bytes) : List Bytes :=
  (lines.flatMap fun line =>
    if change.concerns line then (if change.remove then [] else [change.entry]) else [line]) ++
  if change.remove = false ∧ change.found lines = false then [change.entry] else []

/-- `wpm_repo_add`: the change that it asks `rewrite` for. -/
def repoAdd (fullPath : Bytes → Option Bytes) (url : Bytes) (priority : ℤ)
    (allowInsecureHttp : Bool) : Option Change :=
  match repositoryNormalize fullPath url with
  | none => none
  | some normalized =>
    if isHttpRepository normalized ∧ allowInsecureHttp = false then none
    else if isHttpRepository normalized = false ∧ allowInsecureHttp then none
    else some ⟨normalized, priority, allowInsecureHttp, false⟩

/-- `wpm_repo_remove`: a locator that cannot be normalized is looked for as it is. -/
def repoRemove (fullPath : Bytes → Option Bytes) (url : Bytes) : Option Change :=
  match repositoryNormalize fullPath url with
  | some normalized => some ⟨normalized, 0, false, true⟩
  | none =>
    if url = [] ∨ (strstr (str "://") url).isSome ∨ url.any (· ∈ [9, 13, 10]) then none
    else some ⟨url, 0, false, true⟩

/-- The change is one that a command asks for. -/
def Change.Requested (fullPath : Bytes → Option Bytes) (change : Change) : Prop :=
  (∃ url priority allow, repoAdd fullPath url priority allow = some change) ∨
    ∃ url, repoRemove fullPath url = some change

/-- How the calls to the file system go: `read` is how many characters can be read of the old file
before a read fails, if one does, and `wrote i` is what the temporary file gets of the `i`th call to
`fputs` or `fprintf`. -/
structure Outcome where
  located : Bool
  inputOpens : Bool
  outputOpens : Bool
  read : Option ℕ
  wrote : ℕ → Bytes → Bytes
  outputCloses : Bool
  moves : Bool

/-- What the calls of `fgets` deliver. -/
def Outcome.readLines (h : Outcome) (old : Option Bytes) : List Bytes :=
  match old with
  | none => []
  | some text =>
    if h.inputOpens = false then []
    else
      let text := textMode text
      (fgetsAll configLineSize (text.take (h.read.getD text.length))).map cstr

/-- The text that reaches the temporary file. -/
def Outcome.written (h : Outcome) (lines : List Bytes) : Bytes := (lines.mapIdx h.wrote).flatten

/-- The temporary file is closed and moved over the old one. -/
def Outcome.commits (h : Outcome) : Bool :=
  h.located && h.outputOpens && h.outputCloses && h.moves

/-- `rewrite`: whether it reports success, and the file that it leaves. -/
def rewrite (h : Outcome) (change : Change) (old : Option Bytes) : Bool × Option Bytes :=
  if h.located = false ∨ h.outputOpens = false then (false, old)
  else
    let lines := h.readLines old
    let text := h.written (change.apply lines)
    if h.outputCloses = false ∨ h.moves = false then (false, old)
    else (!(change.remove && !change.found lines), some (textModeOut text))

/-! ### All or nothing -/

/-- **An update is all or nothing**: after a success the lines are the old ones with the change made,
and after a failure they are the old ones. -/
def AllOrNothing (h : Outcome) (change : Change) (old : Option Bytes) : Prop :=
  let (ok, new) := rewrite h change old
  configLines new = if ok then change.apply (configLines old) else configLines old

/-- No call fails that the caller does not look at: the old file is opened if there is one and read
to its end, and the temporary file gets all of the lines that are written. -/
structure Outcome.Sound (h : Outcome) (old : Option Bytes) (lines : List Bytes) : Prop where
  opens : old ≠ none → h.inputOpens = true
  reads : ∀ text ∈ old, ∀ n ∈ h.read, (textMode text).length ≤ n
  writes : ∀ (i : ℕ) (hi : i < lines.length), h.wrote i lines[i] = lines[i]

/-- The lines are lines again when they stand in a file one behind the other: each of them but the
last ends with its line feed or fills the buffer, none is empty or too long, and none holds a null
character. -/
structure Stays (lines : List Bytes) : Prop where
  cut : IsCut configLineSize lines
  plain : ∀ line ∈ lines, (0 : UInt8) ∉ line

section Stays

variable {lines : List Bytes} {old : Option Bytes}

lemma configLines_some (text : Bytes) :
    configLines (some text) = (fgetsAll configLineSize (textMode text)).map cstr := rfl

/-- **What is written is read again**, exactly if the lines stay lines. -/
theorem configLines_textModeOut_iff :
    configLines (some (textModeOut lines.flatten)) = lines ↔ Stays lines := by
  rw [configLines_some, textMode_textModeOut]
  have hsize : 2 ≤ configLineSize := by decide
  constructor
  · intro h
    -- what is left by `cstr` holds no null character
    have hplain : ∀ line ∈ lines, (0 : UInt8) ∉ line := by
      intro line hline
      rw [← h] at hline
      obtain ⟨piece, -, rfl⟩ := List.mem_map.1 hline
      exact zero_notMem_cstr piece
    have hcstr : (fgetsAll configLineSize lines.flatten).map cstr =
        fgetsAll configLineSize lines.flatten := by
      refine (List.map_congr_left fun piece hpiece => cstr_eq_self fun h0 => ?_).trans (List.map_id' _)
      have hmem : (0 : UInt8) ∈ lines.flatten := by
        rw [← flatten_fgetsAll configLineSize lines.flatten]
        exact List.mem_flatten.2 ⟨piece, hpiece, h0⟩
      obtain ⟨line, hline, hc⟩ := List.mem_flatten.1 hmem
      exact hplain line hline hc
    rw [hcstr] at h
    exact ⟨((fgetsAll_eq_iff hsize).1 h).2, hplain⟩
  · rintro ⟨hcut, hplain⟩
    rw [(fgetsAll_eq_iff hsize).2 ⟨rfl, hcut⟩]
    exact (List.map_congr_left fun line hline => cstr_eq_self (hplain line hline)).trans
      (List.map_id' _)

end Stays

section Rewrite

variable {h : Outcome} {change : Change} {old : Option Bytes}

lemma rewrite_of_not_commits (hcommits : h.commits = false) : rewrite h change old = (false, old) := by
  rw [rewrite]
  by_cases hopen : h.located = false ∨ h.outputOpens = false
  · rw [if_pos hopen]
  · have hlate : h.outputCloses = false ∨ h.moves = false := by
      simp only [Outcome.commits, Bool.and_eq_false_iff, not_or] at hcommits hopen
      tauto
    rw [if_neg hopen, if_pos hlate]

lemma rewrite_of_commits (hcommits : h.commits = true) :
    rewrite h change old = (!(change.remove && !change.found (h.readLines old)),
      some (textModeOut (h.written (change.apply (h.readLines old))))) := by
  simp only [Outcome.commits, Bool.and_eq_true] at hcommits
  obtain ⟨⟨⟨hlocated, houtput⟩, hcloses⟩, hmoves⟩ := hcommits
  rw [rewrite, if_neg (by simp [hlocated, houtput]), if_neg (by simp [hcloses, hmoves])]

/-- All of the old file is read. -/
lemma Outcome.Sound.take_read {lines : List Bytes} {text : Bytes} (hsound : h.Sound old lines)
    (hold : old = some text) :
    (textMode text).take (h.read.getD (textMode text).length) = textMode text := by
  cases hread : h.read with
  | none => rw [Option.getD_none, List.take_length]
  | some n => exact List.take_of_length_le (hsound.reads text hold n hread)

lemma Outcome.Sound.readLines {lines : List Bytes} (hsound : h.Sound old lines) :
    h.readLines old = configLines old := by
  cases old with
  | none => rfl
  | some text =>
    have hopens := hsound.opens (by simp)
    rw [Outcome.readLines, hopens, if_neg Bool.false_ne_true.symm]
    dsimp only
    rw [hsound.take_read rfl]
    rfl

lemma Outcome.Sound.written {lines : List Bytes} (hsound : h.Sound old lines) :
    h.written lines = lines.flatten := by
  rw [Outcome.written]
  congr 1
  refine List.ext_getElem (by simp) fun i h₁ h₂ => ?_
  rw [List.getElem_mapIdx, hsound.writes]

/-- A removal of what is not there writes the lines as they are. -/
lemma Change.apply_of_not_found {lines : List Bytes} (hremove : change.remove = true)
    (hfound : change.found lines = false) : change.apply lines = lines := by
  have hnone : ∀ line ∈ lines, change.concerns line = false := by
    intro line hline
    by_contra hc
    rw [Change.found, List.any_eq_false] at hfound
    exact hfound line hline (by simpa using hc)
  have hcopy : (lines.flatMap fun line =>
      if change.concerns line then (if change.remove then [] else [change.entry]) else [line]) =
        lines.flatMap fun line => [line] := by
    refine List.flatMap_congr fun line hline => ?_
    rw [hnone line hline, if_neg Bool.false_ne_true]
  rw [Change.apply, hcopy, if_neg (by simp [hremove]), List.append_nil, List.flatMap_singleton']

/-- **When an update is all or nothing.** One that does not replace the file changes nothing. One
that does, and has no failure that it does not look at, makes the change and no other, exactly if the
lines that it writes stay lines. -/
theorem allOrNothing_iff (h : Outcome) (change : Change) (old : Option Bytes) :
    (h.commits = false → AllOrNothing h change old) ∧
      (h.commits = true → h.Sound old (change.apply (configLines old)) →
        (AllOrNothing h change old ↔ Stays (change.apply (configLines old)))) := by
  constructor
  · intro hcommits
    rw [AllOrNothing, rewrite_of_not_commits hcommits]
    rfl
  · intro hcommits hsound
    rw [AllOrNothing, rewrite_of_commits hcommits, hsound.readLines, hsound.written,
      ← configLines_textModeOut_iff]
    dsimp only
    by_cases hok : (change.remove && !change.found (configLines old)) = true
    · obtain ⟨hremove, hfound⟩ : change.remove = true ∧ change.found (configLines old) = false := by
        simpa using hok
      rw [hok, Change.apply_of_not_found hremove hfound]
      rfl
    · rw [Bool.not_eq_true] at hok
      rw [hok]
      rfl

/-- All the calls go well. -/
def Outcome.fine : Outcome := ⟨true, true, true, none, fun _ line => line, true, true⟩

lemma Outcome.sound_fine (old : Option Bytes) (lines : List Bytes) : Outcome.fine.Sound old lines :=
  ⟨fun _ => rfl, fun _ _ _ hn => absurd hn (by simp [Outcome.fine]), fun _ _ => rfl⟩

/-- The configuration of two repositories. -/
def twoRepositories : Bytes := str "10\thttps://a.example\r\n5\thttps://b.example\r\n"

def sampleAdd : Change := ⟨str "https://c.example", 7, false, false⟩

theorem allOrNothing_sample : AllOrNothing .fine sampleAdd (some twoRepositories) :=
  ((allOrNothing_iff .fine sampleAdd (some twoRepositories)).2 rfl (Outcome.sound_fine _ _)).2
      (configLines_textModeOut_iff.1 (by decide))

/-- **The other repositories are lost** when the old file cannot be opened. -/
theorem rewrite_drops_repositories :
    rewrite { Outcome.fine with inputOpens := false } sampleAdd (some twoRepositories) =
        (true, some (str "7\thttps://c.example\r\n")) ∧
      ¬AllOrNothing { Outcome.fine with inputOpens := false } sampleAdd (some twoRepositories) := by
  constructor
  · decide
  · rw [AllOrNothing]
    decide

end Rewrite

/-! ### What a change does -/

/-- The change is made: there is no line for the locator, or one line and copies of it. -/
def Change.Made (change : Change) (lines : List Bytes) : Prop :=
  (change.remove = true → change.found lines = false) ∧
    (change.remove = false → change.entry ∈ lines ∧
      ∀ line ∈ lines, change.concerns line = true → line = change.entry)

/-- The locator fits on a line: it has no tab, line feed or carriage return. -/
def Change.Plain (change : Change) : Prop := ∀ c ∈ change.wanted, c ∉ ([9, 10, 13] : Bytes)

section Made

variable {change other : Change} {lines : List Bytes}

lemma mem_apply {line : Bytes} : line ∈ change.apply lines ↔
    (line ∈ lines ∧ change.concerns line = false) ∨
      line = change.entry ∧ change.remove = false := by
  rw [Change.apply, List.mem_append, List.mem_flatMap]
  constructor
  · rintro (⟨old, hold, hline⟩ | hline)
    · by_cases hc : change.concerns old = true
      · rw [if_pos hc] at hline
        split_ifs at hline with hremove
        · exact absurd hline List.not_mem_nil
        · exact .inr ⟨List.mem_singleton.1 hline, by simpa using hremove⟩
      · rw [if_neg hc] at hline
        obtain rfl := List.mem_singleton.1 hline
        exact .inl ⟨hold, by simpa using hc⟩
    · split_ifs at hline with hnew
      · exact .inr ⟨List.mem_singleton.1 hline, hnew.1⟩
      · exact absurd hline List.not_mem_nil
  · rintro (⟨hold, hc⟩ | ⟨rfl, hremove⟩)
    · refine .inl ⟨line, hold, ?_⟩
      rw [hc, if_neg Bool.false_ne_true]
      exact List.mem_singleton_self line
    · by_cases hfound : change.found lines = true
      · obtain ⟨old, hold, hc⟩ := List.any_eq_true.1 hfound
        refine .inl ⟨old, hold, ?_⟩
        rw [if_pos hc, hremove, if_neg Bool.false_ne_true]
        exact List.mem_singleton_self _
      · refine .inr ?_
        rw [if_pos ⟨hremove, by simpa using hfound⟩]
        exact List.mem_singleton_self _

/-- **A change is made** on the lines that it is applied to. -/
theorem made_apply (change : Change) (lines : List Bytes) : change.Made (change.apply lines) := by
  constructor
  · intro hremove
    refine List.any_eq_false.2 fun line hline => ?_
    rcases mem_apply.1 hline with ⟨-, hc⟩ | ⟨-, hadd⟩
    · simp [hc]
    · rw [hremove] at hadd
      exact absurd hadd Bool.false_ne_true.symm
  · intro hadd
    refine ⟨mem_apply.2 (.inr ⟨rfl, hadd⟩), ?_⟩
    intro line hline hconcerns
    rcases mem_apply.1 hline with ⟨-, hc⟩ | ⟨rfl, -⟩
    · rw [hc] at hconcerns
      exact absurd hconcerns Bool.false_ne_true
    · rfl

/-- **What is read of a line that is written**, with or without its line feed. -/
lemma parseEntry_line {priority : ℤ} {url tail : Bytes} {allowHttp : Bool}
    (hplain : ∀ c ∈ url, c ∉ ([9, 10, 13] : Bytes)) (htail : tail = [] ∨ tail = [10]) :
    parseEntry (Decimal.printInt priority ++ 9 :: url ++
        (if allowHttp then str "\tallow-insecure-http=true" else []) ++ tail) =
      if (strtol (Decimal.printInt priority)).2 ≠ [] then none
      else if url ≠ [] ∧ (isHttpRepository url = false ∨ allowHttp) then
        some ((strtol (Decimal.printInt priority)).1, url, allowHttp)
      else none := by
  have htab : (9 : UInt8) ∉ Decimal.printInt priority := by
    intro hmem
    rcases Decimal.mem_printInt hmem with hc | hc <;> exact absurd hc (by decide)
  have hurl : (9 : UInt8) ∉ url := fun hmem => hplain 9 hmem (by decide)
  have hspan : ∀ option : Bytes, (∀ c ∈ option, c ∉ ([13, 10] : Bytes)) →
      spanNot [13, 10] (url ++ option ++ tail) = url ++ option := by
    intro option hoption
    have hstop : tail.takeWhile (fun c => decide (c ∉ ([13, 10] : Bytes))) = [] := by
      rcases htail with rfl | rfl <;> rfl
    rw [spanNot, List.takeWhile_append_of_pos, hstop, List.append_nil]
    intro c hc
    have hnot : c ∉ ([13, 10] : Bytes) := by
      rcases List.mem_append.1 hc with hc | hc
      · have := hplain c hc
        simp only [List.mem_cons, List.not_mem_nil, or_false, not_or] at this ⊢
        exact ⟨this.2.2, this.2.1⟩
      · exact hoption c hc
    simpa using hnot
  have hcut : ∀ rest : Bytes, cutAt 9 (Decimal.printInt priority ++ 9 :: rest) =
      some (Decimal.printInt priority, rest) := fun rest => cutAt_eq_some.2 ⟨rfl, htab⟩
  obtain ⟨option, hoption, hline, hchars⟩ : ∃ option : Bytes,
      parseOption (url ++ option) = some (url, allowHttp) ∧
      Decimal.printInt priority ++ 9 :: url ++
          (if allowHttp then str "\tallow-insecure-http=true" else []) ++ tail =
        Decimal.printInt priority ++ 9 :: (url ++ option ++ tail) ∧
      ∀ c ∈ option, c ∉ ([13, 10] : Bytes) := by
    cases allowHttp with
    | false =>
      refine ⟨[], ?_, by simp, by simp⟩
      rw [List.append_nil, parseOption, cutAt_eq_none.2 hurl]
    | true =>
      refine ⟨str "\tallow-insecure-http=true", ?_, by simp, by decide +kernel⟩
      have hopt : cutAt 9 (url ++ str "\tallow-insecure-http=true") =
          some (url, str "allow-insecure-http=true") := cutAt_eq_some.2 ⟨rfl, hurl⟩
      rw [parseOption, hopt]
      simp
  rw [hline, parseEntry, hcut]
  simp only [Option.bind_eq_bind, Option.bind_some, hspan option hchars, hoption]

/-- The line that is written for a locator is for no other one. -/
lemma parseEntry_entryLine {priority p : ℤ} {url u : Bytes} {allowHttp a : Bool}
    (hplain : ∀ c ∈ url, c ∉ ([9, 10, 13] : Bytes))
    (h : parseEntry (entryLine priority url allowHttp) = some (p, u, a)) : u = url := by
  rw [entryLine, parseEntry_line hplain (.inr rfl)] at h
  split_ifs at h
  exact (by simpa using h : _ ∧ url = u ∧ _).2.1.symm

lemma concerns_entry (hplain : other.Plain) (hne : fold change.wanted ≠ fold other.wanted) :
    change.concerns other.entry = false := by
  rw [Change.concerns]
  cases hparse : parseEntry other.entry with
  | none => rfl
  | some result =>
    obtain ⟨p, url, a⟩ := result
    obtain rfl := parseEntry_entryLine hplain hparse
    simpa using Ne.symm hne

/-- **A change is kept** by one for another locator. -/
theorem Change.Made.apply (hne : fold change.wanted ≠ fold other.wanted) (hchange : change.Plain)
    (hother : other.Plain) (h : change.Made lines) : change.Made (other.apply lines) := by
  have hentry : change.concerns other.entry = false := concerns_entry hother hne
  constructor
  · intro hremove
    have hfound := List.any_eq_false.1 (h.1 hremove)
    refine List.any_eq_false.2 fun line hline => ?_
    rcases mem_apply.1 hline with ⟨hold, -⟩ | ⟨rfl, -⟩
    · exact hfound line hold
    · simp [hentry]
  · intro hadd
    obtain ⟨hmem, honly⟩ := h.2 hadd
    refine ⟨?_, ?_⟩
    · exact mem_apply.2 (.inl ⟨hmem, concerns_entry hchange hne.symm⟩)
    · intro line hline hconcerns
      rcases mem_apply.1 hline with ⟨hold, -⟩ | ⟨rfl, -⟩
      · exact honly line hold hconcerns
      · rw [hentry] at hconcerns
        exact absurd hconcerns Bool.false_ne_true

/-- `GetFullPathNameA` puts no control character into a path. -/
def PlainPaths (fullPath : Bytes → Option Bytes) : Prop :=
  ∀ path result, fullPath path = some result → (∀ c ∈ path, c ∉ ([9, 10, 13] : Bytes)) →
    ∀ c ∈ result, c ∉ ([9, 10, 13] : Bytes)

lemma any_of_mem {s : Bytes} {c : UInt8} (hc : c ∈ s) (h : c ∈ ([9, 10, 13] : Bytes)) :
    s.any (· ∈ ([9, 13, 10] : Bytes)) = true := by
  refine List.any_eq_true.2 ⟨c, hc, ?_⟩
  simp only [List.mem_cons, List.not_mem_nil, or_false] at h
  rcases h with rfl | rfl | rfl <;> decide

lemma trimTrailing_subset (c : UInt8) (floor : ℕ) (s : Bytes) : trimTrailing c floor s ⊆ s := by
  intro x hx
  rcases List.mem_append.1 hx with h | h
  · exact List.mem_of_mem_take h
  · exact List.mem_of_mem_drop ((List.rdropWhile_prefix _ _).subset h)

lemma repositoryNormalize_plain {fullPath : Bytes → Option Bytes} (hfull : PlainPaths fullPath)
    {url normalized : Bytes} (h : repositoryNormalize fullPath url = some normalized) :
    ∀ c ∈ normalized, c ∉ ([9, 10, 13] : Bytes) := by
  rw [repositoryNormalize] at h
  split_ifs at h with hbad hweb
  · obtain rfl := Option.some.inj h
    exact fun c hc hmem => hbad (.inr (any_of_mem (trimTrailing_subset _ _ _ hc) hmem))
  · obtain ⟨result, hresult, h⟩ := Option.bind_eq_some_iff.1 h
    have hplain : ∀ c ∈ result, c ∉ ([9, 10, 13] : Bytes) :=
      hfull url result hresult fun c hc hmem => hbad (.inr (any_of_mem hc hmem))
    have hunify : ∀ c ∈ unify result, c ∉ ([9, 10, 13] : Bytes) := by
      intro c hc
      obtain ⟨d, hd, rfl⟩ := List.mem_map.1 hc
      split_ifs
      · decide
      · exact hplain d hd
    have htrim : ∀ floor, ∀ c ∈ trimTrailing (ch '\\') floor (unify result),
        c ∉ ([9, 10, 13] : Bytes) := fun floor c hc => hunify c (trimTrailing_subset _ _ _ hc)
    dsimp only at h
    split_ifs at h <;> obtain rfl := Option.some.inj h <;> exact htrim _

/-- **The locator of a change fits on a line.** -/
theorem Change.Requested.plain {fullPath : Bytes → Option Bytes} (hfull : PlainPaths fullPath)
    (h : change.Requested fullPath) : change.Plain := by
  rcases h with ⟨url, priority, allow, h⟩ | ⟨url, h⟩
  · rw [repoAdd] at h
    split at h
    next => simp at h
    next normalized hnormalized =>
      split_ifs at h
      obtain rfl := Option.some.inj h
      exact repositoryNormalize_plain hfull hnormalized
  · rw [repoRemove] at h
    split at h
    next normalized hnormalized =>
      obtain rfl := Option.some.inj h
      exact repositoryNormalize_plain hfull hnormalized
    next =>
      split_ifs at h with hbad
      obtain rfl := Option.some.inj h
      exact fun c hc hmem => hbad (.inr (.inr (any_of_mem hc hmem)))

end Made

end Wpm.Repository
