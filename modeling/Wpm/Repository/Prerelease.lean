import Wpm.Lib.Bindings
import Wpm.Repository.Configuration
import Wpm.Repository.Select

/-!
The prerelease policy: `prerelease_effective`, `rewrite_prerelease` and the two commands over it.

The policy is a map from packages to values, with a value for all others, kept as the lines of
`prerelease.txt`. A line that is written may come back as two, if it does not fit the buffer; the
lines of the file are here again what the readers take for lines.
-/

namespace Wpm.Repository

open Wpm.Lib Wpm.Lib.CString Wpm.Lib.Text

/-- `sizeof(line)`. -/
def prereleaseLineSize : ℕ := 512

/-! ### Reading the policy -/

/-- The lines of `prerelease.txt`. -/
def prereleaseLines (file : Option Bytes) : List Bytes :=
  match file with
  | none => []
  | some text => (fgetsAll prereleaseLineSize (textMode text)).map cstr

/-- A line without its end. -/
def trimEnd (line : Bytes) : Bytes := spanNot [13, 10] line

/-- The line of the global setting. -/
def isGlobalLine (line : Bytes) : Bool := fold (line.take 7) = str "global="

/-- `prerelease_effective` of a package, or of none: without one no line is that of a package. -/
def prereleaseOf (file : Option Bytes) : Option Bytes → Bool
  | some package => prereleaseEffective file package
  | none => ((prereleaseLines file).foldl (Policy.read []) ⟨false, none⟩).globalValue

/-! ### Writing it -/

/-- What is asked of `rewrite_prerelease`. -/
structure PrereleaseChange where
  package : Option Bytes
  enabled : Bool
  remove : Bool
  deriving DecidableEq

def boolValue (b : Bool) : Bytes := if b then str "true" else str "false"

namespace PrereleaseChange

/-- The line that is written. -/
def entry (change : PrereleaseChange) : Bytes :=
  match change.package with
  | some package => package ++ 9 :: boolValue change.enabled ++ [10]
  | none => str "global=" ++ boolValue change.enabled ++ [10]

/-- The line is the one to be written anew or left out. -/
def concerns (change : PrereleaseChange) (line : Bytes) : Bool :=
  match change.package with
  | none => isGlobalLine (trimEnd line)
  | some package =>
    match cutAt 9 (trimEnd line) with
    | some (name, _) => stricmp name package = .eq
    | none => false

/-- `found`. -/
def found (change : PrereleaseChange) (lines : List Bytes) : Bool := lines.any change.concerns

/-- The lines with `entry` in the place of those that are concerned, or behind them. -/
def applyWith (change : PrereleaseChange) (entry : List Bytes) (lines : List Bytes) : List Bytes :=
  (lines.flatMap fun line =>
    if change.concerns line then (if change.remove then [] else entry) else [line]) ++
  if change.remove = false ∧ change.found lines = false then entry else []

/-- What is written. -/
def apply (change : PrereleaseChange) (lines : List Bytes) : List Bytes :=
  change.applyWith [change.entry] lines

end PrereleaseChange

/-- What the calls of `fgets` deliver. -/
def Outcome.prereleaseLines (h : Outcome) (old : Option Bytes) : List Bytes :=
  match old with
  | none => []
  | some text =>
    if h.inputOpens = false then []
    else
      let text := textMode text
      (fgetsAll prereleaseLineSize (text.take (h.read.getD text.length))).map cstr

/-- `rewrite_prerelease`: whether it reports success, and the file that it leaves. -/
def rewritePrerelease (h : Outcome) (change : PrereleaseChange) (old : Option Bytes) :
    Bool × Option Bytes :=
  if h.located = false ∨ h.outputOpens = false then (false, old)
  else
    let lines := h.prereleaseLines old
    let text := h.written (change.apply lines)
    if h.outputCloses = false ∨ h.moves = false then (false, old)
    else (!change.remove || change.found lines, some (textModeOut text))

/-- A command that changes the policy. -/
inductive PrereleaseCommand
  | set (package : Option Bytes) (enabled : Bool)
  | unset (package : Bytes)
  deriving DecidableEq

/-- `wpm_config_prerelease_set` and `wpm_config_prerelease_unset`: what they ask for. -/
def PrereleaseCommand.change : PrereleaseCommand → PrereleaseChange
  | .set package enabled => ⟨package, enabled, false⟩
  | .unset package => ⟨some package, false, true⟩

/-! ### The policy as a map -/

/-- The key of a package, or of the global setting. -/
def prereleaseKey (package : Option Bytes) : Option Bytes := package.map fold

def isOn (value : Bytes) : Bool := fold value = str "true"

/-- What a line binds. -/
def prereleaseSetting (line : Bytes) : Option (Option Bytes × Bool) :=
  if isGlobalLine (trimEnd line) then some (none, isOn ((trimEnd line).drop 7))
  else (cutAt 9 (trimEnd line)).map fun p => (some (fold p.1), isOn p.2)

/-- **The value of a package**: its own, or else the global one, or else off. -/
def policyValue (value : Option Bytes → Option Bool) (package : Option Bytes) : Bool :=
  (value (prereleaseKey package)).getD ((value none).getD false)

/-- What one line does to the policy is what it binds. -/
lemma Policy.read_eq (package : Bytes) (policy : Policy) (line : Bytes) :
    policy.read package line = match prereleaseSetting line with
      | none => policy
      | some (none, v) => { policy with globalValue := v }
      | some (some name, v) =>
        if name = fold package then { policy with value := some v } else policy := by
  unfold Policy.read prereleaseSetting isGlobalLine trimEnd
  dsimp only
  by_cases hglobal : fold ((spanNot [13, 10] line).take 7) = str "global="
  · rw [if_pos hglobal, decide_eq_true hglobal, if_pos rfl]
    rfl
  · rw [if_neg hglobal, decide_eq_false hglobal, if_neg Bool.false_ne_true]
    cases cutAt 9 (spanNot [13, 10] line) <;> rfl

/-- **What is read of the lines** is the map of their bindings. -/
lemma foldl_read (package : Bytes) (lines : List Bytes) :
    let policy := lines.foldl (Policy.read package) ⟨false, none⟩
    policy.globalValue = (Bindings.last none (lines.filterMap prereleaseSetting)).getD false ∧
      policy.value = Bindings.last (some (fold package)) (lines.filterMap prereleaseSetting) := by
  induction lines using List.reverseRecOn with
  | nil => exact ⟨rfl, rfl⟩
  | append_singleton lines line ih =>
    obtain ⟨hglobal, hvalue⟩ := ih
    rw [List.foldl_append, List.filterMap_append]
    dsimp only [List.foldl_cons, List.foldl_nil]
    rw [Policy.read_eq]
    cases hsetting : prereleaseSetting line with
    | none => simpa [hsetting] using ⟨hglobal, hvalue⟩
    | some setting =>
      obtain ⟨key, v⟩ := setting
      have hlast : [line].filterMap prereleaseSetting = [(key, v)] := by simp [hsetting]
      rw [hlast, Bindings.last_append_singleton, Bindings.last_append_singleton]
      cases key with
      | none => simpa using hvalue
      | some name =>
        by_cases hname : name = fold package
        · simpa [hname] using hglobal
        · simpa [hname] using ⟨hglobal, hvalue⟩

theorem prereleaseOf_eq (file package : Option Bytes) :
    prereleaseOf file package = policyValue
      (fun key => Bindings.last key ((prereleaseLines file).filterMap prereleaseSetting)) package := by
  unfold prereleaseOf policyValue
  cases package with
  | none =>
    dsimp only [prereleaseKey, Option.map_none]
    rw [(foldl_read [] (prereleaseLines file)).1]
    cases Bindings.last none ((prereleaseLines file).filterMap prereleaseSetting) <;> rfl
  | some package =>
    cases file with
    | none => rfl
    | some text =>
      obtain ⟨hglobal, hvalue⟩ := foldl_read package (prereleaseLines (some text))
      dsimp only [prereleaseKey, Option.map_some]
      rw [← hglobal, ← hvalue]
      rfl

/-! ### A file that the commands have written -/

/-- A line that stays one: `fgets` reads it as it is, and it is not both a global setting and that of
a package. -/
structure CleanLine (line : Bytes) : Prop where
  piece : IsPiece prereleaseLineSize line
  closed : IsClosed prereleaseLineSize line
  plain : (0 : UInt8) ∉ line
  global : isGlobalLine (trimEnd line) = true → (9 : UInt8) ∉ trimEnd line

/-- **The lines that are written are read again.** -/
lemma prereleaseLines_textModeOut {lines : List Bytes} (h : ∀ line ∈ lines, CleanLine line) :
    prereleaseLines (some (textModeOut lines.flatten)) = lines := by
  have hcut : IsCut prereleaseLineSize lines :=
    ⟨fun line hline => (h line hline).piece,
      fun line hline => (h line (List.dropLast_subset _ hline)).closed⟩
  rw [prereleaseLines, textMode_textModeOut, (fgetsAll_eq_iff (by decide)).2 ⟨rfl, hcut⟩]
  exact (List.map_congr_left fun line hline => cstr_eq_self (h line hline).plain).trans
    (List.map_id' _)

namespace PrereleaseChange

variable {change : PrereleaseChange} {lines entry : List Bytes}

/-- The key that is changed, and its new value. -/
def key (change : PrereleaseChange) : Option Bytes := prereleaseKey change.package

def newValue (change : PrereleaseChange) : Option Bool :=
  if change.remove then none else some change.enabled

/-- A line is concerned if it binds the key. -/
lemma concerns_iff {line : Bytes} (h : CleanLine line) :
    change.concerns line = true ↔ ∃ v, prereleaseSetting line = some (change.key, v) := by
  unfold concerns prereleaseSetting key prereleaseKey
  cases hglobal : isGlobalLine (trimEnd line) with
  | true =>
    have hcut : cutAt 9 (trimEnd line) = none := cutAt_eq_none.2 (h.global hglobal)
    cases change.package <;> simp [hcut]
  | false =>
    cases change.package with
    | none => simp
    | some package =>
      cases hcut : cutAt 9 (trimEnd line) with
      | none => simp
      | some p => simp

/-- **The bindings after a change**, if what is written binds the new value. -/
lemma filterMap_applyWith (h : ∀ line ∈ lines, CleanLine line)
    (hentry : change.remove = false →
      entry.filterMap prereleaseSetting = [(change.key, change.enabled)]) :
    (change.applyWith entry lines).filterMap prereleaseSetting =
      Bindings.rebind change.key change.newValue (lines.filterMap prereleaseSetting) :=
  Bindings.filterMap_replaceAll (fun line hline => concerns_iff (h line hline)) hentry

lemma mem_applyWith {line : Bytes} (hline : line ∈ change.applyWith entry lines) :
    line ∈ lines ∨ line ∈ entry ∧ change.remove = false :=
  Bindings.mem_replaceAll hline

/-- What is written does not depend on where its last line is cut. -/
lemma flatten_applyWith (hentry : entry.flatten = change.entry) :
    (change.applyWith entry lines).flatten = (change.apply lines).flatten :=
  Bindings.flatten_replaceAll (hentry.trans List.flatten_singleton.symm)

/-! ### The line that is written -/

/-- A change whose line is read back as it is meant: the name has no character that ends a name, a
line or the text, does not start like the global setting, and leaves room in the buffer for what
counts of the value. -/
def Plain (change : PrereleaseChange) : Prop :=
  ∀ package, change.package = some package → change.remove = false →
    (∀ c ∈ package, c ∉ ([0, 9, 10, 13] : Bytes)) ∧ isGlobalLine package = false ∧
      package.length + (if change.enabled then 5 else 1) < prereleaseLineSize

end PrereleaseChange

/-- A tab does not belong to the start of the global setting. -/
lemma isGlobalLine_append (package rest : Bytes) :
    isGlobalLine (package ++ 9 :: rest) = isGlobalLine package := by
  unfold isGlobalLine
  by_cases hlen : 7 ≤ package.length
  · rw [List.take_append_of_le_length hlen]
  · have hshort : fold (package.take 7) ≠ str "global=" := by
      intro h
      have hl := congrArg List.length h
      rw [length_fold, List.length_take] at hl
      have hseven : (str "global=").length = 7 := by decide
      omega
    have htab : fold ((package ++ 9 :: rest).take 7) ≠ str "global=" := by
      intro h
      have hmem : (9 : UInt8) ∈ (package ++ 9 :: rest).take 7 := by
        refine List.mem_take_iff_getElem.2 ⟨package.length, ?_, ?_⟩
        · rw [List.length_append, List.length_cons]
          omega
        · simp
      have hfold : (9 : UInt8) ∈ fold ((package ++ 9 :: rest).take 7) :=
        List.mem_map.2 ⟨9, hmem, by decide⟩
      rw [h] at hfold
      exact absurd hfold (by decide)
    rw [decide_eq_false hshort, decide_eq_false htab]

/-- The start of the line of a package, or all of it. -/
lemma cleanLine_package {package value tail : Bytes}
    (hpackage : ∀ c ∈ package, c ∉ ([0, 9, 10, 13] : Bytes))
    (hglobal : isGlobalLine package = false) (hvalue : ∀ c ∈ value, c ∉ ([0, 10, 13] : Bytes))
    (htail : (tail = [] ∧ package.length + value.length + 2 = prereleaseLineSize) ∨
      (tail = [10] ∧ package.length + value.length + 2 < prereleaseLineSize)) :
    CleanLine (package ++ 9 :: value ++ tail) ∧
      prereleaseSetting (package ++ 9 :: value ++ tail) = some (some (fold package), isOn value) := by
  have hname : ∀ c ∈ package ++ 9 :: value, c ∉ ([0, 10, 13] : Bytes) := by
    intro c hc
    rcases List.mem_append.1 hc with hc | hc
    · have hnot := hpackage c hc
      simp only [List.mem_cons, List.not_mem_nil, or_false, not_or] at hnot ⊢
      exact ⟨hnot.1, hnot.2.2⟩
    · rcases List.mem_cons.1 hc with rfl | hc
      · decide
      · exact hvalue c hc
  have htrim : trimEnd (package ++ 9 :: value ++ tail) = package ++ 9 :: value := by
    have hall : ∀ c ∈ package ++ 9 :: value, decide (c ∉ ([13, 10] : Bytes)) = true := by
      intro c hc
      have hnot := hname c hc
      simp only [List.mem_cons, List.not_mem_nil, or_false, not_or] at hnot
      simp [hnot.2.1, hnot.2.2]
    have hrest : tail.takeWhile (fun c => decide (c ∉ ([13, 10] : Bytes))) = [] := by
      rcases htail with ⟨rfl, -⟩ | ⟨rfl, -⟩ <;> rfl
    rw [trimEnd, spanNot, List.takeWhile_append_of_pos hall, hrest, List.append_nil]
  have hcut : cutAt 9 (package ++ 9 :: value) = some (package, value) :=
    cutAt_eq_some.2 ⟨rfl, fun hmem => hpackage 9 hmem (by decide)⟩
  have hlf : (10 : UInt8) ∉ package ++ 9 :: value := fun hmem => hname 10 hmem (by decide)
  have hlength : (package ++ 9 :: value).length = package.length + value.length + 1 := by
    rw [List.length_append, List.length_cons]
    omega
  refine ⟨⟨?_, ?_, ?_, ?_⟩, ?_⟩
  · rcases htail with ⟨rfl, hlen⟩ | ⟨rfl, hlen⟩
    · rw [List.append_nil]
      exact ⟨by simp, by omega, fun hmem => hlf (List.mem_of_mem_dropLast hmem)⟩
    · refine ⟨by simp, ?_, ?_⟩
      · rw [List.length_append, hlength, List.length_singleton]
        omega
      · rw [List.dropLast_concat]
        exact hlf
  · rcases htail with ⟨rfl, hlen⟩ | ⟨rfl, hlen⟩
    · rw [List.append_nil]
      exact .inr (by omega)
    · exact .inl List.getLast?_concat
  · intro h0
    rcases List.mem_append.1 h0 with h0 | h0
    · exact hname 0 h0 (by decide)
    · rcases htail with ⟨rfl, -⟩ | ⟨rfl, -⟩ <;> simp at h0
  · rw [htrim, isGlobalLine_append, hglobal]
    exact fun h => absurd h Bool.false_ne_true
  · rw [prereleaseSetting, htrim, isGlobalLine_append, hglobal, hcut]
    rfl

/-- What is left of a value when the buffer was full before its end binds nothing. -/
lemma cleanLine_rest : ∀ enabled, ∀ j < 6, CleanLine ((boolValue enabled).drop j ++ [10]) ∧
    prereleaseSetting ((boolValue enabled).drop j ++ [10]) = none := by
  have hpiece : ∀ enabled, ∀ j < 6, (boolValue enabled).drop j ++ [10] ≠ [] ∧
      ((boolValue enabled).drop j ++ [10]).length < prereleaseLineSize ∧
      (10 : UInt8) ∉ ((boolValue enabled).drop j ++ [10]).dropLast := by decide
  have hplain : ∀ enabled, ∀ j < 6, (0 : UInt8) ∉ (boolValue enabled).drop j ++ [10] := by decide
  have hglobal : ∀ enabled, ∀ j < 6,
      isGlobalLine (trimEnd ((boolValue enabled).drop j ++ [10])) = false := by decide
  have hsetting : ∀ enabled, ∀ j < 6,
      prereleaseSetting ((boolValue enabled).drop j ++ [10]) = none := by decide
  intro enabled j hj
  refine ⟨⟨hpiece enabled j hj, .inl (by simp), hplain enabled j hj, ?_⟩, hsetting enabled j hj⟩
  rw [hglobal enabled j hj]
  exact fun h => absurd h Bool.false_ne_true

lemma cleanLine_global : ∀ enabled, CleanLine (str "global=" ++ boolValue enabled ++ [10]) ∧
    prereleaseSetting (str "global=" ++ boolValue enabled ++ [10]) = some (none, enabled) := by
  have hpiece : ∀ enabled, (str "global=" ++ boolValue enabled ++ [10]) ≠ [] ∧
      (str "global=" ++ boolValue enabled ++ [10]).length < prereleaseLineSize ∧
      (10 : UInt8) ∉ (str "global=" ++ boolValue enabled ++ [10]).dropLast := by decide
  have hplain : ∀ enabled, (0 : UInt8) ∉ str "global=" ++ boolValue enabled ++ [10] := by decide
  have htab : ∀ enabled, (9 : UInt8) ∉ trimEnd (str "global=" ++ boolValue enabled ++ [10]) := by
    decide
  have hsetting : ∀ enabled, prereleaseSetting (str "global=" ++ boolValue enabled ++ [10]) =
      some (none, enabled) := by decide
  intro enabled
  exact ⟨⟨hpiece enabled, .inl (by simp), hplain enabled, fun _ => htab enabled⟩, hsetting enabled⟩

lemma isOn_take_boolValue {enabled : Bool} {n : ℕ} (h : (if enabled then 4 else 0) ≤ n) :
    isOn ((boolValue enabled).take n) = enabled := by
  cases enabled with
  | true =>
    have hall : (boolValue true).take n = boolValue true := List.take_of_length_le h
    rw [hall]
    decide
  | false =>
    have hshort : ∀ n < 6, isOn ((boolValue false).take n) = false := by decide
    by_cases hn : n < 6
    · exact hshort n hn
    · have hall : (boolValue false).take n = boolValue false :=
        List.take_of_length_le (by have : (boolValue false).length = 5 := by decide
                                   omega)
      rw [hall]
      decide

namespace PrereleaseChange

variable {change : PrereleaseChange} {lines entry : List Bytes}

/-- **What is read of the line that is written**: lines that bind the new value and nothing else. -/
lemma exists_entry (hplain : change.Plain) : ∃ entry : List Bytes, entry.flatten = change.entry ∧
    (change.remove = false → (∀ line ∈ entry, CleanLine line) ∧
      entry.filterMap prereleaseSetting = [(change.key, change.enabled)]) := by
  obtain ⟨package, enabled, remove⟩ := change
  cases package with
  | none =>
    obtain ⟨hclean, hsetting⟩ := cleanLine_global enabled
    refine ⟨[str "global=" ++ boolValue enabled ++ [10]], List.flatten_singleton, fun _ => ?_⟩
    refine ⟨?_, ?_⟩
    · intro line hline
      exact List.mem_singleton.1 hline ▸ hclean
    · rw [List.filterMap_cons, hsetting]
      rfl
  | some package =>
    cases remove with
    | true => exact ⟨[_], List.flatten_singleton, fun h => absurd h Bool.false_ne_true.symm⟩
    | false =>
      obtain ⟨hpackage, hglobal, hroom⟩ := hplain package rfl rfl
      have hchars : ∀ c ∈ boolValue enabled, c ∉ ([0, 10, 13] : Bytes) := by
        have hall : ∀ enabled, (boolValue enabled).all (fun c => c ∉ ([0, 10, 13] : Bytes)) =
            true := by decide
        intro c hc
        exact of_decide_eq_true (List.all_eq_true.1 (hall enabled) c hc)
      have hlength : ∀ enabled, (boolValue enabled).length ≤ 5 := by decide
      have hlength := hlength enabled
      have hsize : prereleaseLineSize = 512 := rfl
      by_cases hfits : package.length + (boolValue enabled).length + 2 < prereleaseLineSize
      · obtain ⟨hclean, hsetting⟩ := cleanLine_package hpackage hglobal hchars (.inr ⟨rfl, hfits⟩)
        have htrue : ∀ enabled, isOn (boolValue enabled) = enabled := by decide
        refine ⟨[package ++ 9 :: boolValue enabled ++ [10]], List.flatten_singleton, fun _ => ⟨?_, ?_⟩⟩
        · intro line hline
          exact List.mem_singleton.1 hline ▸ hclean
        · rw [List.filterMap_cons, hsetting, htrue]
          rfl
      · -- the buffer is full before the end of the line, which is read as another one
        have hj : 510 - package.length < 6 := by omega
        have htake : ((boolValue enabled).take (510 - package.length)).length =
            510 - package.length := by
          rw [List.length_take]
          omega
        have hle : package.length ≤ 510 := by
          dsimp only at hroom
          split_ifs at hroom <;> omega
        obtain ⟨hclean, hsetting⟩ := cleanLine_package hpackage hglobal
          (fun c hc => hchars c (List.mem_of_mem_take hc)) (.inl ⟨rfl, by rw [htake]; omega⟩)
        obtain ⟨hrest, hnone⟩ := cleanLine_rest enabled _ hj
        have htrue : isOn ((boolValue enabled).take (510 - package.length)) = enabled := by
          refine isOn_take_boolValue ?_
          dsimp only at hroom
          split_ifs at hroom ⊢ <;> omega
        refine ⟨[package ++ 9 :: (boolValue enabled).take (510 - package.length) ++ [],
          (boolValue enabled).drop (510 - package.length) ++ [10]], ?_, fun _ => ⟨?_, ?_⟩⟩
        · dsimp only [PrereleaseChange.entry]
          rw [List.flatten_cons, List.flatten_singleton, List.append_nil, List.append_assoc,
            List.cons_append, ← List.append_assoc, List.take_append_drop, List.append_assoc,
            List.cons_append]
        · intro line hline
          rcases List.mem_cons.1 hline with rfl | hline
          · exact hclean
          · exact List.mem_singleton.1 hline ▸ hrest
        · rw [List.filterMap_cons, hsetting, List.filterMap_cons, hnone, htrue]
          rfl

end PrereleaseChange

/-! ### Runs -/

/-- A sequence of commands that succeed, from an absent file on, and the file that they leave. No
call to the file system fails that the program does not look at. -/
inductive PrereleaseRun : List PrereleaseCommand → Option Bytes → Prop
  | start : PrereleaseRun [] none
  | step {commands : List PrereleaseCommand} {file file' : Option Bytes} (h : Outcome)
      (command : PrereleaseCommand) (hrun : PrereleaseRun commands file)
      (hsound : h.Sound file (command.change.apply (prereleaseLines file)))
      (hsuccess : rewritePrerelease h command.change file = (true, file')) :
      PrereleaseRun (commands ++ [command]) file'

/-- The value that was set last for the key, if it was not unset since. -/
def lastSet (commands : List PrereleaseCommand) (key : Option Bytes) : Option Bool :=
  commands.foldl (fun value command =>
    if command.change.key = key then command.change.newValue else value) none

lemma lastSet_append (commands : List PrereleaseCommand) (command : PrereleaseCommand)
    (key : Option Bytes) : lastSet (commands ++ [command]) key =
      if command.change.key = key then command.change.newValue else lastSet commands key := by
  rw [lastSet, List.foldl_append]
  rfl

/-- What a command leaves of lines that stay lines. -/
lemma rewritePrerelease_clean {h : Outcome} {change : PrereleaseChange} {file file' : Option Bytes}
    (hsound : h.Sound file (change.apply (prereleaseLines file)))
    (hsuccess : rewritePrerelease h change file = (true, file'))
    (hclean : ∀ line ∈ prereleaseLines file, CleanLine line) (hplain : change.Plain) :
    (∀ line ∈ prereleaseLines file', CleanLine line) ∧
      (prereleaseLines file').filterMap prereleaseSetting = Bindings.rebind change.key
        change.newValue ((prereleaseLines file).filterMap prereleaseSetting) := by
  have hread : h.prereleaseLines file = prereleaseLines file := by
    cases file with
    | none => rfl
    | some text =>
      have hopens := hsound.opens (by simp)
      rw [Outcome.prereleaseLines, hopens, if_neg Bool.false_ne_true.symm]
      dsimp only
      rw [hsound.take_read rfl]
      rfl
  unfold rewritePrerelease at hsuccess
  dsimp only at hsuccess
  split_ifs at hsuccess with hopen hlate
  · exact absurd (congrArg Prod.fst hsuccess) Bool.false_ne_true
  · exact absurd (congrArg Prod.fst hsuccess) Bool.false_ne_true
  have hfile : some (textModeOut (h.written (change.apply (h.prereleaseLines file)))) = file' :=
    congrArg Prod.snd hsuccess
  obtain ⟨entry, hflatten, hentry⟩ := PrereleaseChange.exists_entry hplain
  rw [hread, hsound.written, ← PrereleaseChange.flatten_applyWith hflatten] at hfile
  have hnew : ∀ line ∈ change.applyWith entry (prereleaseLines file), CleanLine line := by
    intro line hline
    rcases PrereleaseChange.mem_applyWith hline with hline | ⟨hline, hremove⟩
    · exact hclean line hline
    · exact (hentry hremove).1 line hline
  rw [← hfile, prereleaseLines_textModeOut hnew]
  exact ⟨hnew, PrereleaseChange.filterMap_applyWith hclean fun hremove => (hentry hremove).2⟩

lemma PrereleaseRun.clean {commands : List PrereleaseCommand} {file : Option Bytes}
    (hrun : PrereleaseRun commands file) (hplain : ∀ command ∈ commands, command.change.Plain) :
    (∀ line ∈ prereleaseLines file, CleanLine line) ∧
      ∀ key, Bindings.last key ((prereleaseLines file).filterMap prereleaseSetting) =
        lastSet commands key := by
  induction hrun with
  | start => exact ⟨fun line hline => absurd hline List.not_mem_nil, fun _ => rfl⟩
  | step h command hrun hsound hsuccess ih =>
    obtain ⟨hclean, hlast⟩ := ih fun command' h' => hplain command' (List.mem_append_left _ h')
    obtain ⟨hclean', hbindings⟩ := rewritePrerelease_clean hsound hsuccess hclean
      (hplain command (List.mem_append_right _ (List.mem_singleton_self _)))
    refine ⟨hclean', fun key => ?_⟩
    rw [hbindings, lastSet_append]
    split_ifs with hkey
    · rw [← hkey, Bindings.last_rebind_self]
    · rw [Bindings.last_rebind_of_ne (Ne.symm hkey), hlast]

/-- **The prerelease policy is a map**: a package has the value that was set last for it, or else the
global one, or else off; and a command for a package changes neither the value of another one nor the
global one. -/
theorem prereleaseRun_map {commands : List PrereleaseCommand} {file : Option Bytes}
    (hrun : PrereleaseRun commands file) (hplain : ∀ command ∈ commands, command.change.Plain) :
    (∀ package, prereleaseOf file package = policyValue (lastSet commands) package) ∧
      ∀ (h : Outcome) (command : PrereleaseCommand) (file' : Option Bytes),
        h.Sound file (command.change.apply (prereleaseLines file)) →
        rewritePrerelease h command.change file = (true, file') → command.change.Plain →
        command.change.key ≠ none → ∀ package, prereleaseKey package ≠ command.change.key →
          prereleaseOf file' package = prereleaseOf file package := by
  obtain ⟨hclean, hlast⟩ := hrun.clean hplain
  have hvalue : ∀ package, prereleaseOf file package =
      policyValue (lastSet commands) package := by
    intro package
    rw [prereleaseOf_eq]
    exact congrArg (policyValue · package) (funext hlast)
  refine ⟨hvalue, ?_⟩
  intro h command file' hsound hsuccess hcommand hglobal package hother
  obtain ⟨-, hbindings⟩ := rewritePrerelease_clean hsound hsuccess hclean hcommand
  rw [prereleaseOf_eq, prereleaseOf_eq, hbindings, policyValue, policyValue,
    Bindings.last_rebind_of_ne hother, Bindings.last_rebind_of_ne hglobal.symm]

/-- Prereleases of everything but one package. -/
def sampleCommands : List PrereleaseCommand :=
  [.set none true, .set (some (str "Tool")) true, .set (some (str "tool")) false]

def samplePolicy : Option Bytes := some (str "global=true\r\ntool\tfalse\r\n")

lemma sampleCommands_run : PrereleaseRun sampleCommands samplePolicy :=
  .step .fine (.set (some (str "tool")) false)
    (.step .fine (.set (some (str "Tool")) true)
      (.step .fine (.set none true) .start (Outcome.sound_fine _ _)
        (by decide : _ = (true, some (str "global=true\r\n"))))
      (Outcome.sound_fine _ _)
      (by decide : _ = (true, some (str "global=true\r\nTool\ttrue\r\n"))))
    (Outcome.sound_fine _ _) (by decide)

lemma sampleCommands_plain : ∀ command ∈ sampleCommands, command.change.Plain := by
  intro command hcommand package hpackage _
  simp only [sampleCommands, List.mem_cons, List.not_mem_nil, or_false] at hcommand
  rcases hcommand with rfl | rfl | rfl
  · exact absurd hpackage (by simp [PrereleaseCommand.change])
  · obtain rfl := Option.some.inj hpackage
    exact ⟨forall_mem_of_all (by decide), by decide, by decide⟩
  · obtain rfl := Option.some.inj hpackage
    exact ⟨forall_mem_of_all (by decide), by decide, by decide⟩

theorem prereleaseRun_map_sample : prereleaseOf samplePolicy (some (str "TOOL")) = false ∧
    prereleaseOf samplePolicy (some (str "other")) = true :=
  have h := (prereleaseRun_map sampleCommands_run sampleCommands_plain).1
  ⟨(h (some (str "TOOL"))).trans (by decide), (h (some (str "other"))).trans (by decide)⟩

/-- **A name with a tab is not found again**: its line is read as that of another package. -/
theorem prerelease_forgets_tab : ∃ file,
    PrereleaseRun [.set none true, .set (some (str "a\tb")) true] file ∧
      prereleaseOf file (some (str "a")) = false ∧
      policyValue (lastSet [.set none true, .set (some (str "a\tb")) true]) (some (str "a")) = true :=
  ⟨some (str "global=true\r\na\tb\ttrue\r\n"),
    .step .fine (.set (some (str "a\tb")) true)
      (.step .fine (.set none true) .start (Outcome.sound_fine _ _)
        (by decide : _ = (true, some (str "global=true\r\n"))))
      (Outcome.sound_fine _ _) (by decide),
    by decide, by decide⟩

end Wpm.Repository
