import Wpm.Lib.CString
import Wpm.Lib.Transducer

/-!
What becomes of the output of a package script: the log without its control sequences, and the
terminal that translates them.

`filter_script_log` and `write_script_terminal` read the same bytes, in pieces as the pipe gives them.
Each keeps its own state from one piece to the next.
-/

namespace Wpm.Archive.ScriptLog

open Wpm.Lib.CString Wpm.Lib.Transducer

inductive AnsiState
  | text | escape | csi | osc | oscEscape
  deriving DecidableEq, Repr

/-! ### The log -/

/-- One turn of the loop in `filter_script_log`. -/
def filterStep (state : AnsiState) (character : UInt8) : AnsiState × Bytes :=
  match state with
  | .text => if character = 0x1b then (.escape, []) else (.text, [character])
  | .escape =>
    if character = ch '[' then (.csi, [])
    else if character = ch ']' then (.osc, [])
    else (.text, [])
  | .csi => if 0x40 ≤ character ∧ character ≤ 0x7e then (.text, []) else (.csi, [])
  | .osc =>
    if character = 0x07 then (.text, [])
    else if character = 0x1b then (.oscEscape, [])
    else (.osc, [])
  | .oscEscape => (if character = ch '\\' then .text else .osc, [])

/-- `filter_script_log`: the state of the filter, and the bytes that are kept. -/
def filterScriptLog (filter : AnsiState) (bytes : Bytes) : AnsiState × Bytes :=
  run filterStep filter bytes

/-! ### The terminal -/

/-- A `wpm_script_terminal`. The buffer `csi` has 64 bytes, of which `csi` lists the ones that are
used. -/
structure ScriptTerminal where
  defaultAttributes : UInt16
  attributes : UInt16
  csi : Bytes
  state : AnsiState
  translateAnsi : Bool

/-- What the terminal is given: a character, or attributes for the characters after it. -/
inductive Shown
  | character (c : UInt8)
  | attributes (a : UInt16)
  deriving DecidableEq, Repr

/-- `FOREGROUND_INTENSITY`. -/
def foregroundIntensity : UInt16 := 8

/-- The bits of the two colours. -/
def foregroundMask : UInt16 := 0x000F

def backgroundMask : UInt16 := 0x00F0

/-- `ansi_color_bits`. -/
def ansiColorBits (color : Int32) : UInt16 :=
  [0, 4, 2, 6, 1, 5, 3, 7].getD (color &&& 7).toNatClampNeg 0

/-- The first loop of `apply_script_sgr`, with room for this many parameters. The value of a
parameter is an `int`. -/
def sgrParameters : ℕ → Int32 → Bool → Bytes → List Int32
  | 0, _, _, _ => []
  | _, _, _, [] => []
  | room + 1, value, haveValue, c :: rest =>
    if ch '0' ≤ c ∧ c ≤ ch '9' then
      sgrParameters (room + 1) (value * 10 + Int32.ofNat c.toNat - 48) true rest
    else if c = ch ';' then
      (if haveValue then value else 0) :: sgrParameters room 0 false rest
    else sgrParameters (room + 1) value haveValue rest

/-- The attributes after one parameter. -/
def applyCode (default attributes : UInt16) (code : Int32) : UInt16 :=
  if code = 0 then default
  else if code = 1 then attributes ||| foregroundIntensity
  else if code = 22 then attributes &&& ~~~foregroundIntensity
  else if 30 ≤ code ∧ code ≤ 37 then
    (attributes &&& ~~~foregroundMask) ||| ansiColorBits (code - 30)
  else if code = 39 then (attributes &&& ~~~foregroundMask) ||| (default &&& foregroundMask)
  else if 40 ≤ code ∧ code ≤ 47 then
    (attributes &&& ~~~backgroundMask) ||| (ansiColorBits (code - 40) <<< 4)
  else if code = 49 then (attributes &&& ~~~backgroundMask) ||| (default &&& backgroundMask)
  else if 90 ≤ code ∧ code ≤ 97 then
    (attributes &&& ~~~foregroundMask) ||| ansiColorBits (code - 90) ||| foregroundIntensity
  else if 100 ≤ code ∧ code ≤ 107 then
    (attributes &&& ~~~backgroundMask) |||
      ((ansiColorBits (code - 100) ||| foregroundIntensity) <<< 4)
  else attributes

/-- How many parameters after an extended colour belong to it. -/
def colorParameters (code : Int32) (rest : List Int32) : ℕ :=
  if (code = 38 ∨ code = 48) ∧ rest ≠ [] then
    if rest.headD 0 = 5 ∧ 2 ≤ rest.length then 2
    else if rest.headD 0 = 2 ∧ 4 ≤ rest.length then 4
    else 0
  else 0

/-- The second loop of `apply_script_sgr`, with the number of parameters to pass over. -/
def applyParameters (default : UInt16) : UInt16 → ℕ → List Int32 → UInt16
  | attributes, _, [] => attributes
  | attributes, skip + 1, _ :: rest => applyParameters default attributes skip rest
  | attributes, 0, code :: rest =>
    applyParameters default (applyCode default attributes code) (colorParameters code rest) rest

/-- `apply_script_sgr`: the new attributes. -/
def applyScriptSgr (terminal : ScriptTerminal) : UInt16 :=
  let parameters := sgrParameters 16 0 false (terminal.csi ++ [ch ';'])
  applyParameters terminal.defaultAttributes terminal.attributes 0
    (if parameters = [] then [0] else parameters)

/-- The terminal after the end of a control sequence. -/
def endCsi (terminal : ScriptTerminal) (character : UInt8) : ScriptTerminal × List Shown :=
  if character = ch 'm' then
    let attributes := applyScriptSgr terminal
    ({ terminal with attributes, state := .text }, [.attributes attributes])
  else ({ terminal with state := .text }, [])

/-- One turn of the loop in `write_script_terminal`. -/
def terminalStep (terminal : ScriptTerminal) (character : UInt8) : ScriptTerminal × List Shown :=
  match terminal.state with
  | .text =>
    if character = 0x1b then ({ terminal with state := .escape }, [])
    else (terminal, [.character character])
  | .escape =>
    ({ terminal with
      csi := []
      state := if character = ch '[' then .csi else if character = ch ']' then .osc else .text }, [])
  | .csi =>
    if 0x40 ≤ character ∧ character ≤ 0x7e then endCsi terminal character
    else if terminal.csi.length + 1 < 64 then
      ({ terminal with csi := terminal.csi ++ [character] }, [])
    else (terminal, [])
  | .osc =>
    if character = 0x07 then ({ terminal with state := .text }, [])
    else if character = 0x1b then ({ terminal with state := .oscEscape }, [])
    else (terminal, [])
  | .oscEscape =>
    ({ terminal with state := if character = ch '\\' then .text else .osc }, [])

/-- `write_script_terminal`. A terminal that knows the sequences itself is given every byte. -/
def writeScriptTerminal (bytes : Bytes) (terminal : ScriptTerminal) : ScriptTerminal × List Shown :=
  if terminal.translateAnsi = false then (terminal, bytes.map .character)
  else run terminalStep terminal bytes

/-! ### Pieces -/

/-- The script's output, piece by piece through `filter_script_log`. -/
def filterPieces : AnsiState → List Bytes → AnsiState × Bytes
  | filter, [] => (filter, [])
  | filter, piece :: pieces =>
    let next := filterScriptLog filter piece
    let rest := filterPieces next.1 pieces
    (rest.1, next.2 ++ rest.2)

/-- The script's output, piece by piece through `write_script_terminal`. -/
def writePieces : ScriptTerminal → List Bytes → ScriptTerminal × List Shown
  | terminal, [] => (terminal, [])
  | terminal, piece :: pieces =>
    let next := writeScriptTerminal piece terminal
    let rest := writePieces next.1 pieces
    (rest.1, next.2 ++ rest.2)

/-- The characters that a terminal shows. -/
def Shown.text (shown : List Shown) : Bytes :=
  shown.filterMap fun s => match s with
    | .character c => some c
    | .attributes _ => none

lemma filterPieces_eq (filter : AnsiState) (pieces : List Bytes) :
    filterPieces filter pieces = filterScriptLog filter pieces.flatten := by
  rw [filterScriptLog, ← runPieces_eq]
  induction pieces generalizing filter with
  | nil => rfl
  | cons piece pieces ih => rw [filterPieces, ih, runPieces, filterScriptLog]

lemma endCsi_eq (terminal : ScriptTerminal) (c : UInt8) :
    (endCsi terminal c).1.state = .text ∧
      (endCsi terminal c).1.translateAnsi = terminal.translateAnsi ∧
      Shown.text (endCsi terminal c).2 = [] := by
  rw [endCsi]
  split_ifs
  · exact ⟨rfl, rfl, rfl⟩
  · exact ⟨rfl, rfl, rfl⟩

/-- **The two automata take the same steps**, and the terminal shows what the log keeps. -/
lemma terminalStep_follows (terminal : ScriptTerminal) (c : UInt8) :
    (terminalStep terminal c).1.state = (filterStep terminal.state c).1 ∧
      (terminalStep terminal c).1.translateAnsi = terminal.translateAnsi ∧
      Shown.text (terminalStep terminal c).2 = (filterStep terminal.state c).2 := by
  rw [terminalStep, filterStep.eq_def]
  cases hstate : terminal.state with
  | text =>
    dsimp only
    split_ifs
    · exact ⟨rfl, rfl, rfl⟩
    · exact ⟨hstate, rfl, rfl⟩
  | escape =>
    dsimp only
    split_ifs <;> exact ⟨rfl, rfl, rfl⟩
  | csi =>
    dsimp only
    split_ifs
    · exact endCsi_eq terminal c
    · exact ⟨rfl, rfl, rfl⟩
    · exact ⟨hstate, rfl, rfl⟩
  | osc =>
    dsimp only
    split_ifs
    · exact ⟨rfl, rfl, rfl⟩
    · exact ⟨rfl, rfl, rfl⟩
    · exact ⟨hstate, rfl, rfl⟩
  | oscEscape => exact ⟨rfl, rfl, rfl⟩

lemma writePieces_eq {terminal : ScriptTerminal} (h : terminal.translateAnsi = true)
    (pieces : List Bytes) :
    writePieces terminal pieces = run terminalStep terminal pieces.flatten := by
  have hkeep : ∀ (t : ScriptTerminal) (bytes : Bytes), t.translateAnsi = true →
      (run terminalStep t bytes).1.translateAnsi = true := by
    intro t bytes ht
    induction bytes generalizing t with
    | nil => exact ht
    | cons c bytes ih => exact ih _ ((terminalStep_follows t c).2.1.trans ht)
  rw [← runPieces_eq]
  induction pieces generalizing terminal with
  | nil => rfl
  | cons piece pieces ih =>
    have hwrite : writeScriptTerminal piece terminal = run terminalStep terminal piece := by
      rw [writeScriptTerminal, if_neg (by simp [h])]
    rw [writePieces, hwrite, ih (hkeep terminal piece h), runPieces]

/-- No step of the filter keeps an escape character. -/
lemma filterStep_escape (state : AnsiState) (c : UInt8) : ∀ b ∈ (filterStep state c).2, b ≠ 0x1b := by
  intro b hb
  cases state with
  | text =>
    rw [filterStep] at hb
    by_cases hc : c = 0x1b
    · rw [if_pos hc] at hb
      cases hb
    · rw [if_neg hc] at hb
      rw [List.mem_singleton.1 hb]
      exact hc
  | escape =>
    rw [filterStep] at hb
    split_ifs at hb <;> cases hb
  | csi =>
    rw [filterStep] at hb
    split_ifs at hb <;> cases hb
  | osc =>
    rw [filterStep] at hb
    split_ifs at hb <;> cases hb
  | oscEscape => cases hb

/-- **The log does not depend on the pieces** that the output comes in; it has no escape character,
and it is what a terminal that translates the sequences shows, whatever pieces that one is given. -/
theorem scriptLog_pieces {pieces pieces' : List Bytes} (h : pieces.flatten = pieces'.flatten) :
    (filterPieces .text pieces).2 = (filterPieces .text pieces').2 ∧
    0x1b ∉ (filterPieces .text pieces).2 ∧
    ∀ terminal : ScriptTerminal, terminal.state = .text → terminal.translateAnsi = true →
      Shown.text (writePieces terminal pieces').2 = (filterPieces .text pieces).2 := by
  have hfilter : ∀ pieces, (filterPieces .text pieces).2 = (run filterStep .text pieces.flatten).2 :=
    fun pieces => by rw [filterPieces_eq, filterScriptLog]
  refine ⟨?_, fun hmem => ?_, fun terminal hstate htranslate => ?_⟩
  · rw [hfilter, hfilter, h]
  · rw [hfilter] at hmem
    exact forall_mem_run filterStep_escape _ _ _ hmem rfl
  · have hview : ∀ x y, Shown.text (x ++ y) = Shown.text x ++ Shown.text y := fun x y =>
      List.filterMap_append
    rw [hfilter, h, writePieces_eq htranslate]
    refine (run_follows (r := fun state (t : ScriptTerminal) => state = t.state) rfl hview ?_
      hstate.symm _).symm
    rintro state t c rfl
    have hfollows := terminalStep_follows t c
    exact ⟨hfollows.1.symm, hfollows.2.2.symm⟩

/-- A colour that is cut in two. -/
theorem scriptLog_pieces_sample :
    (filterPieces .text [str "a\x1b[3", str "1mb"]).2 =
        (filterPieces .text [str "a\x1b[31mb"]).2 ∧
      Shown.text (writePieces ⟨7, 7, [], .text, true⟩ [str "a\x1b[31mb"]).2 =
        (filterPieces .text [str "a\x1b[3", str "1mb"]).2 := by
  have h : [str "a\x1b[3", str "1mb"].flatten = [str "a\x1b[31mb"].flatten := by decide
  exact ⟨(scriptLog_pieces h).1, (scriptLog_pieces h).2.2 _ rfl rfl⟩

end Wpm.Archive.ScriptLog
