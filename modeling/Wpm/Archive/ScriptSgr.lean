import Mathlib.Algebra.Order.Ring.Int
import Wpm.Archive.ScriptLog

/-!
The parameters of the colour sequences in a script's output.

`apply_script_sgr` adds up the digits of a parameter in an `int`. What the digits mean is here a
natural number (`decimalParameters`); the two agree as long as no number on the way is too large for
an `int`.
-/

namespace Wpm.Archive.ScriptLog

open Wpm.Lib.CString

/-- A decimal digit. -/
def IsDigitChar (c : UInt8) : Prop := ch '0' ≤ c ∧ c ≤ ch '9'

instance (c : UInt8) : Decidable (IsDigitChar c) := by
  unfold IsDigitChar
  infer_instance

/-- The parameters as decimal numbers of any size, as `sgrParameters` reads them. -/
def decimalParameters : ℕ → ℕ → Bool → Bytes → List ℕ
  | 0, _, _, _ => []
  | _, _, _, [] => []
  | room + 1, value, haveValue, c :: rest =>
    if IsDigitChar c then decimalParameters (room + 1) (value * 10 + (c.toNat - 48)) true rest
    else if c = ch ';' then
      (if haveValue then value else 0) :: decimalParameters room 0 false rest
    else decimalParameters (room + 1) value haveValue rest

/-- The numbers that `value * 10 + character - '0'` comes to in the first loop, in whole numbers. -/
def sgrNumbers : ℕ → ℤ → Bytes → List ℤ
  | 0, _, _ => []
  | _, _, [] => []
  | room + 1, value, c :: rest =>
    if IsDigitChar c then
      value * 10 :: (value * 10 + c.toNat) :: (value * 10 + c.toNat - 48) ::
        sgrNumbers (room + 1) (value * 10 + c.toNat - 48) rest
    else if c = ch ';' then sgrNumbers room 0 rest
    else sgrNumbers (room + 1) value rest

/-- The indices at which the first loop writes to `parameters`, from `count` on. -/
def sgrWrites (count : ℕ) : Bytes → List ℕ
  | [] => []
  | c :: rest =>
    if 16 ≤ count then []
    else if IsDigitChar c then sgrWrites count rest
    else if c = ch ';' then count :: sgrWrites (count + 1) rest
    else sgrWrites count rest

/-- The indices at which the second loop reads `parameters`: that of each parameter that it does not
pass over, and the one behind an extended colour. -/
def sgrReads : ℕ → ℕ → List Int32 → List ℕ
  | _, _, [] => []
  | parameter, skip + 1, _ :: rest => sgrReads (parameter + 1) skip rest
  | parameter, 0, code :: rest =>
    parameter :: (if (code = 38 ∨ code = 48) ∧ rest ≠ [] then [parameter + 1] else []) ++
      sgrReads (parameter + 1) (colorParameters code rest) rest

/-- What the second loop does with each parameter: its decimal value, and the attributes before and
after it. -/
def sgrEffects (default : UInt16) : UInt16 → ℕ → List (ℕ × Int32) → List (ℕ × UInt16 × UInt16)
  | _, _, [] => []
  | attributes, skip + 1, (value, _) :: rest =>
    (value, attributes, attributes) :: sgrEffects default attributes skip rest
  | attributes, 0, (value, code) :: rest =>
    (value, attributes, applyCode default attributes code) ::
      sgrEffects default (applyCode default attributes code)
        (colorParameters code (rest.map Prod.snd)) rest

/-- The attribute codes that the function knows. -/
def KnownCode (value : ℕ) : Prop :=
  value = 0 ∨ value = 1 ∨ value = 22 ∨ 30 ≤ value ∧ value ≤ 37 ∨ value = 39 ∨
    40 ≤ value ∧ value ≤ 47 ∨ value = 49 ∨ 90 ≤ value ∧ value ≤ 97 ∨ 100 ≤ value ∧ value ≤ 107

instance (value : ℕ) : Decidable (KnownCode value) := by
  unfold KnownCode
  infer_instance

/-- What `apply_script_sgr` reads: the sequence, and the semicolon that it puts behind. -/
def sgrText (terminal : ScriptTerminal) : Bytes := terminal.csi ++ [ch ';']

/-- The parameters of a sequence, as decimal numbers. -/
def sgrValues (terminal : ScriptTerminal) : List ℕ := decimalParameters 16 0 false (sgrText terminal)

/-- The parameters of a sequence, as the code has them. -/
def sgrCodes (terminal : ScriptTerminal) : List Int32 := sgrParameters 16 0 false (sgrText terminal)

/-- **`apply_script_sgr` is sound** on a sequence: no number leaves the range of `int`, no index that
of the array, no parameter changes the attributes unless its decimal value is a known code, and the
attributes that are set are those after the last parameter. -/
def SgrSound (terminal : ScriptTerminal) : Prop :=
  (∀ x ∈ sgrNumbers 16 0 (sgrText terminal), -2 ^ 31 ≤ x ∧ x < 2 ^ 31) ∧
  (∀ i ∈ sgrWrites 0 (sgrText terminal) ++ sgrReads 0 0 (sgrCodes terminal), i < 16) ∧
  (∀ effect ∈ sgrEffects terminal.defaultAttributes terminal.attributes 0
      ((sgrValues terminal).zip (sgrCodes terminal)),
    ¬KnownCode effect.1 → effect.2.2 = effect.2.1) ∧
  applyScriptSgr terminal =
    ((sgrEffects terminal.defaultAttributes terminal.attributes 0
      ((sgrValues terminal).zip (sgrCodes terminal))).getLast?.map fun e => e.2.2).getD
        terminal.attributes

/-- The terminal at each call of `apply_script_sgr` while it is given `bytes`. -/
def sgrCalls : ScriptTerminal → Bytes → List ScriptTerminal
  | _, [] => []
  | terminal, c :: bytes =>
    (if terminal.state = .csi ∧ c = ch 'm' then [terminal] else []) ++
      sgrCalls (terminalStep terminal c).1 bytes

/-- The same for the output of a script, piece by piece. -/
def sgrCallsPieces : ScriptTerminal → List Bytes → List ScriptTerminal
  | _, [] => []
  | terminal, piece :: pieces =>
    (if terminal.translateAnsi then sgrCalls terminal piece else []) ++
      sgrCallsPieces (writeScriptTerminal piece terminal).1 pieces

/-- The largest value of a parameter: the code of its last digit is added before that of the digit
zero is taken away. -/
def sgrLargest : ℕ := 2147483647 - 48

/-! ### Numbers -/

lemma digit_bounds {c : UInt8} (h : IsDigitChar c) : 48 ≤ c.toNat ∧ c.toNat ≤ 57 := by
  have h0 : (ch '0').toNat = 48 := by decide
  have h9 : (ch '9').toNat = 57 := by decide
  obtain ⟨hlow, hhigh⟩ := h
  rw [UInt8.le_iff_toNat_le, h0] at hlow
  rw [UInt8.le_iff_toNat_le, h9] at hhigh
  exact ⟨hlow, hhigh⟩

/-- The digits before a semicolon make a parameter that is no smaller than what they start from. -/
lemma exists_le_decimalParameters {room value : ℕ} {haveValue : Bool} {text : Bytes}
    (hvalue : haveValue = false → value = 0) (htext : ch ';' ∈ text) :
    ∃ v ∈ decimalParameters (room + 1) value haveValue text, value ≤ v := by
  induction text generalizing value haveValue with
  | nil => exact absurd htext List.not_mem_nil
  | cons c text ih =>
    rw [decimalParameters]
    have hrest : c ≠ ch ';' → ch ';' ∈ text := fun hne =>
      (List.mem_cons.1 htext).resolve_left fun h => hne h.symm
    split
    · next hdigit =>
      have hne : c ≠ ch ';' := by
        rintro rfl
        exact absurd hdigit (by decide)
      obtain ⟨v, hv, hle⟩ := @ih (value * 10 + (c.toNat - 48)) true
        (fun h => absurd h (by decide)) (hrest hne)
      exact ⟨v, hv, by omega⟩
    · split
      · refine ⟨_, List.mem_cons_self, ?_⟩
        split
        · exact Nat.le_refl value
        · next hhave => exact Nat.le_of_eq (hvalue (by simpa using hhave))
      · next hne => exact ih hvalue (hrest hne)

/-- **No number leaves the range** exactly if no parameter is too large. -/
lemma sgrNumbers_iff {room value : ℕ} {haveValue : Bool} {text : Bytes}
    (hvalue : haveValue = false → value = 0) (hlargest : value ≤ sgrLargest)
    (htext : text = [] ∨ ∃ start, text = start ++ [ch ';']) :
    (∀ x ∈ sgrNumbers room value text, -2 ^ 31 ≤ x ∧ x < 2 ^ 31) ↔
      ∀ v ∈ decimalParameters room value haveValue text, v ≤ sgrLargest := by
  have hL : sgrLargest = 2147483599 := rfl
  have hrest : ∀ {c : UInt8} {rest : Bytes}, (∃ start, c :: rest = start ++ [ch ';']) →
      rest = [] ∨ ∃ start, rest = start ++ [ch ';'] := by
    rintro c rest ⟨start, h⟩
    cases start with
    | nil => exact Or.inl (List.cons.inj h).2
    | cons b start => exact Or.inr ⟨start, (List.cons.inj h).2⟩
  induction text generalizing room value haveValue with
  | nil => cases room <;> simp [sgrNumbers, decimalParameters]
  | cons c rest ih =>
    have htail := hrest (htext.resolve_left (List.cons_ne_nil c rest))
    cases room with
    | zero => simp [sgrNumbers, decimalParameters]
    | succ room =>
      rw [sgrNumbers, decimalParameters]
      by_cases hdigit : IsDigitChar c
      · obtain ⟨hlow, hhigh⟩ := digit_bounds hdigit
        have hcast : ((value * 10 + (c.toNat - 48) : ℕ) : ℤ) = (value : ℤ) * 10 + c.toNat - 48 := by
          omega
        have hfalse : true = false → value * 10 + (c.toNat - 48) = 0 := fun h => absurd h (by decide)
        rw [if_pos hdigit, if_pos hdigit, ← hcast, List.forall_mem_cons, List.forall_mem_cons,
          List.forall_mem_cons]
        constructor
        · rintro ⟨-, hsum, -, hnumbers⟩
          have hsmall : value * 10 + (c.toNat - 48) ≤ sgrLargest := by omega
          exact (ih hfalse hsmall htail).1 hnumbers
        · intro hvalues
          -- The text ends in a semicolon, so that this value goes into a parameter.
          have hmem : ch ';' ∈ rest := by
            obtain hnil | ⟨start, rfl⟩ := htail
            · obtain ⟨start, h⟩ := htext.resolve_left (List.cons_ne_nil c rest)
              rw [hnil] at h
              have hc : c = ch ';' := by
                have := congrArg List.getLast? h
                simpa using this
              rw [hc] at hdigit
              exact absurd hdigit (by decide)
            · exact List.mem_append_right start (List.mem_singleton_self _)
          obtain ⟨v, hv, hle⟩ := @exists_le_decimalParameters room _ true _ hfalse hmem
          have hsmall : value * 10 + (c.toNat - 48) ≤ sgrLargest := hle.trans (hvalues v hv)
          exact ⟨by omega, by omega, by omega, (ih hfalse hsmall htail).2 hvalues⟩
      · rw [if_neg hdigit, if_neg hdigit]
        by_cases hsemicolon : c = ch ';'
        · have hzero : (if haveValue then value else 0) ≤ sgrLargest := by
            split
            · exact hlargest
            · omega
          rw [if_pos hsemicolon, if_pos hsemicolon, List.forall_mem_cons,
            and_iff_right hzero]
          exact @ih room 0 false (fun _ => rfl) (Nat.zero_le _) htail
        · rw [if_neg hsemicolon, if_neg hsemicolon]
          exact ih hvalue hlargest htail

/-- The parameters of the code are the decimal ones, cut to an `int`. -/
lemma sgrParameters_eq (room value : ℕ) (haveValue : Bool) (text : Bytes) :
    sgrParameters room (Int32.ofNat value) haveValue text =
      (decimalParameters room value haveValue text).map Int32.ofNat := by
  induction text generalizing room value haveValue with
  | nil => cases room <;> rfl
  | cons c rest ih =>
    cases room with
    | zero => rfl
    | succ room =>
      rw [sgrParameters, decimalParameters]
      by_cases hdigit : IsDigitChar c
      · obtain ⟨hlow, -⟩ := digit_bounds hdigit
        have hnext : Int32.ofNat value * 10 + Int32.ofNat c.toNat - 48 =
            Int32.ofNat (value * 10 + (c.toNat - 48)) := by
          have hsum : value * 10 + c.toNat = value * 10 + (c.toNat - 48) + 48 := by omega
          rw [show (10 : Int32) = Int32.ofNat 10 from rfl, ← Int32.ofNat_mul, ← Int32.ofNat_add,
            hsum, Int32.ofNat_add]
          exact Int32.add_sub_cancel _ _
        rw [if_pos hdigit, if_pos (show ch '0' ≤ c ∧ c ≤ ch '9' from hdigit), hnext]
        exact ih _ _ _
      · rw [if_neg hdigit, if_neg (show ¬(ch '0' ≤ c ∧ c ≤ ch '9') from hdigit)]
        split
        · rw [List.map_cons]
          congr 1
          · split <;> rfl
          · exact ih room 0 false
        · exact ih _ _ _

/-! ### Indices -/

lemma sgrWrites_lt (count : ℕ) (text : Bytes) : ∀ i ∈ sgrWrites count text, i < 16 := by
  induction text generalizing count with
  | nil => exact fun i hi => absurd hi List.not_mem_nil
  | cons c rest ih =>
    rw [sgrWrites]
    split_ifs with hcount hdigit hsemicolon
    · exact fun i hi => absurd hi List.not_mem_nil
    · exact ih count
    · exact List.forall_mem_cons.2 ⟨by omega, ih (count + 1)⟩
    · exact ih count

lemma sgrReads_lt (parameter skip : ℕ) (parameters : List Int32) :
    ∀ i ∈ sgrReads parameter skip parameters, i < parameter + parameters.length := by
  induction parameters generalizing parameter skip with
  | nil =>
    cases skip <;> exact fun i hi => absurd hi List.not_mem_nil
  | cons code rest ih =>
    intro i hi
    rw [List.length_cons]
    cases skip with
    | succ skip =>
      have := ih (parameter + 1) skip i hi
      omega
    | zero =>
      rw [sgrReads] at hi
      obtain rfl | hi := List.mem_cons.1 hi
      · omega
      · obtain hnext | hlater := List.mem_append.1 hi
        · split at hnext
          · next h =>
            have hpos : 0 < rest.length := List.length_pos_iff.2 h.2
            rw [List.mem_singleton.1 hnext]
            omega
          · exact absurd hnext List.not_mem_nil
        · have := ih (parameter + 1) _ i hlater
          omega

lemma sgrParameters_length (room : ℕ) (value : Int32) (haveValue : Bool) (text : Bytes) :
    (sgrParameters room value haveValue text).length ≤ room := by
  induction text generalizing room value haveValue with
  | nil => cases room <;> exact Nat.zero_le _
  | cons c rest ih =>
    cases room with
    | zero => exact Nat.le_refl 0
    | succ room =>
      rw [sgrParameters]
      split_ifs
      · exact ih _ _ _
      · exact Nat.succ_le_succ (ih room 0 false)
      · exact Nat.succ_le_succ (ih room 0 false)
      · exact ih _ _ _

/-! ### Codes -/

lemma ofNat_eq_iff {value k : ℕ} (hvalue : value < 2 ^ 31) (hk : k < 2 ^ 31) :
    Int32.ofNat value = Int32.ofNat k ↔ value = k := by
  rw [← Int32.toInt_inj, Int32.toInt_ofNat_of_lt hvalue, Int32.toInt_ofNat_of_lt hk]
  exact Int.ofNat_inj

lemma ofNat_le_iff {value k : ℕ} (hvalue : value < 2 ^ 31) (hk : k < 2 ^ 31) :
    Int32.ofNat value ≤ Int32.ofNat k ↔ value ≤ k := by
  rw [Int32.le_iff_toInt_le, Int32.toInt_ofNat_of_lt hvalue, Int32.toInt_ofNat_of_lt hk]
  exact Int.ofNat_le

/-- A number that is no code changes no attribute, as long as it is an `int`. -/
lemma applyCode_unknown {default attributes : UInt16} {value : ℕ} (hvalue : value < 2 ^ 31)
    (hunknown : ¬KnownCode value) : applyCode default attributes (Int32.ofNat value) = attributes := by
  have heq : ∀ k, k < 2 ^ 31 → value ≠ k → ¬Int32.ofNat value = Int32.ofNat k := fun k hk hne h =>
    hne ((ofNat_eq_iff hvalue hk).1 h)
  have hrange : ∀ low high, low < 2 ^ 31 → high < 2 ^ 31 → ¬(low ≤ value ∧ value ≤ high) →
      ¬(Int32.ofNat low ≤ Int32.ofNat value ∧ Int32.ofNat value ≤ Int32.ofNat high) := by
    intro low high hlow hhigh hne h
    exact hne ⟨(ofNat_le_iff hlow hvalue).1 h.1, (ofNat_le_iff hvalue hhigh).1 h.2⟩
  rw [KnownCode] at hunknown
  push Not at hunknown
  obtain ⟨h0, h1, h22, h30, h39, h40, h49, h90, h100⟩ := hunknown
  have e0 : ¬Int32.ofNat value = 0 := heq 0 (by decide) h0
  have e1 : ¬Int32.ofNat value = 1 := heq 1 (by decide) h1
  have e22 : ¬Int32.ofNat value = 22 := heq 22 (by decide) h22
  have e30 : ¬(30 ≤ Int32.ofNat value ∧ Int32.ofNat value ≤ 37) :=
    hrange 30 37 (by decide) (by decide) (by omega)
  have e39 : ¬Int32.ofNat value = 39 := heq 39 (by decide) h39
  have e40 : ¬(40 ≤ Int32.ofNat value ∧ Int32.ofNat value ≤ 47) :=
    hrange 40 47 (by decide) (by decide) (by omega)
  have e49 : ¬Int32.ofNat value = 49 := heq 49 (by decide) h49
  have e90 : ¬(90 ≤ Int32.ofNat value ∧ Int32.ofNat value ≤ 97) :=
    hrange 90 97 (by decide) (by decide) (by omega)
  have e100 : ¬(100 ≤ Int32.ofNat value ∧ Int32.ofNat value ≤ 107) :=
    hrange 100 107 (by decide) (by decide) (by omega)
  rw [applyCode, if_neg e0, if_neg e1, if_neg e22, if_neg e30, if_neg e39, if_neg e40, if_neg e49,
    if_neg e90, if_neg e100]

/-- What the second loop leaves is what the last parameter leaves. -/
lemma applyParameters_eq (default attributes : UInt16) (skip : ℕ) (parameters : List (ℕ × Int32)) :
    applyParameters default attributes skip (parameters.map Prod.snd) =
      ((sgrEffects default attributes skip parameters).getLast?.map fun e => e.2.2).getD
        attributes := by
  induction parameters generalizing attributes skip with
  | nil => cases skip <;> rfl
  | cons parameter rest ih =>
    obtain ⟨value, code⟩ := parameter
    have hlast : ∀ (e : ℕ × UInt16 × UInt16) (effects : List (ℕ × UInt16 × UInt16)),
        ((e :: effects).getLast?.map fun e => e.2.2).getD attributes =
          (effects.getLast?.map fun e => e.2.2).getD e.2.2 := by
      intro e effects
      cases effects with
      | nil => rfl
      | cons e' effects => rw [List.getLast?_cons_cons, List.getLast?_cons]; rfl
    cases skip with
    | succ skip =>
      rw [sgrEffects, hlast]
      exact ih attributes skip
    | zero =>
      rw [sgrEffects, hlast]
      exact ih _ _

/-- **The attributes that `apply_script_sgr` sets** are those after its last parameter. -/
lemma applyScriptSgr_eq (terminal : ScriptTerminal) :
    applyScriptSgr terminal =
      ((sgrEffects terminal.defaultAttributes terminal.attributes 0
        ((sgrValues terminal).zip (sgrCodes terminal))).getLast?.map fun e => e.2.2).getD
          terminal.attributes := by
  have hcodes : sgrCodes terminal = (sgrValues terminal).map Int32.ofNat :=
    sgrParameters_eq 16 0 false _
  have hne : sgrCodes terminal ≠ [] := by
    have hmem : ch ';' ∈ sgrText terminal := List.mem_append_right _ (List.mem_singleton_self _)
    obtain ⟨v, hv, -⟩ := @exists_le_decimalParameters 15 0 false _ (fun _ => rfl) hmem
    rw [hcodes]
    exact fun h => absurd (List.map_eq_nil_iff.1 h ▸ hv : v ∈ ([] : List ℕ)) List.not_mem_nil
  have hsnd : ((sgrValues terminal).zip (sgrCodes terminal)).map Prod.snd = sgrCodes terminal :=
    List.map_snd_zip (by rw [hcodes, List.length_map])
  rw [← applyParameters_eq, hsnd, applyScriptSgr]
  exact congrArg _ (if_neg hne)

/-- Parameters that fit an `int` and are no codes change nothing. -/
lemma sgrEffects_unknown {values : List ℕ} (hvalues : ∀ v ∈ values, v < 2 ^ 31)
    (default attributes : UInt16) (skip : ℕ) :
    ∀ effect ∈ sgrEffects default attributes skip (values.zip (values.map Int32.ofNat)),
      ¬KnownCode effect.1 → effect.2.2 = effect.2.1 := by
  induction values generalizing attributes skip with
  | nil => cases skip <;> exact fun e he => absurd he List.not_mem_nil
  | cons value values ih =>
    obtain ⟨hvalue, hrest⟩ := List.forall_mem_cons.1 hvalues
    rw [List.map_cons, List.zip_cons_cons]
    cases skip with
    | succ skip =>
      rw [sgrEffects, List.forall_mem_cons]
      exact ⟨fun _ => rfl, ih hrest _ _⟩
    | zero =>
      rw [sgrEffects, List.forall_mem_cons]
      exact ⟨fun h => applyCode_unknown hvalue h, ih hrest _ _⟩

/-- **A sequence is applied soundly** exactly if none of its parameters is too large. -/
lemma sgrSound_iff (terminal : ScriptTerminal) :
    SgrSound terminal ↔ ∀ v ∈ sgrValues terminal, v ≤ sgrLargest := by
  have hnumbers : (∀ x ∈ sgrNumbers 16 0 (sgrText terminal), -2 ^ 31 ≤ x ∧ x < 2 ^ 31) ↔
      ∀ v ∈ sgrValues terminal, v ≤ sgrLargest :=
    @sgrNumbers_iff 16 0 false _ (fun _ => rfl) (Nat.zero_le _) (Or.inr ⟨terminal.csi, rfl⟩)
  refine ⟨fun h => hnumbers.1 h.1, fun h =>
    ⟨hnumbers.2 h, fun i hi => ?_, ?_, applyScriptSgr_eq terminal⟩⟩
  · obtain hwrite | hread := List.mem_append.1 hi
    · exact sgrWrites_lt 0 _ i hwrite
    · have hindex := sgrReads_lt 0 0 _ i hread
      have hlength : (sgrCodes terminal).length ≤ 16 := sgrParameters_length 16 0 false _
      omega
  · have hcodes : sgrCodes terminal = (sgrValues terminal).map Int32.ofNat :=
      sgrParameters_eq 16 0 false _
    have hsmall : ∀ v ∈ sgrValues terminal, v < 2 ^ 31 := by
      intro v hv
      have hL : sgrLargest = 2147483599 := rfl
      have := h v hv
      omega
    rw [hcodes]
    exact sgrEffects_unknown hsmall _ _ 0

/-- **Over the whole output of a script**, `apply_script_sgr` is sound at each call exactly if no
call is given a parameter that is too large. -/
theorem sgrSound_output (terminal : ScriptTerminal) (pieces : List Bytes) :
    (∀ t ∈ sgrCallsPieces terminal pieces, SgrSound t) ↔
      ∀ t ∈ sgrCallsPieces terminal pieces, ∀ v ∈ sgrValues t, v ≤ sgrLargest :=
  forall₂_congr fun t _ => sgrSound_iff t

/-- The number 2^32 + 1 is no code, and comes to the code 1, which makes the text intense. -/
theorem sgrSound_fails :
    ∃ t ∈ sgrCallsPieces ⟨7, 7, [], .text, true⟩ [str "\x1b[4294967297m"],
      sgrValues t = [4294967297] ∧ ¬KnownCode 4294967297 ∧
        (∃ x ∈ sgrNumbers 16 0 (sgrText t), 2 ^ 31 ≤ x) ∧
        t.attributes = 7 ∧ applyScriptSgr t = 15 ∧ ¬SgrSound t := by
  have hnumber : (4294967297 : ℤ) ∈ sgrNumbers 16 0 (str "4294967297;") := by decide
  refine ⟨⟨7, 7, str "4294967297", .csi, true⟩, ?_, by decide, by decide,
    ⟨4294967297, hnumber, by decide⟩, rfl, by decide, fun h => ?_⟩
  · exact List.mem_singleton_self _
  · exact absurd (h.1 _ hnumber).2 (by decide)

end Wpm.Archive.ScriptLog
