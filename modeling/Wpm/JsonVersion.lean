import Wpm.JsonDocument
import Wpm.JsonRoot
import Wpm.Lib.JsonNumber

/-!
The version of a document.

`wpm_json_version_one` compares a number with one by the places of its digits. It accepts the
spellings of one, and its counters stay far from the bounds of an `int` on a document of 4 MiB.
-/

namespace Wpm.JsonInput

open Wpm.Lib.CString Wpm.Lib.Decimal
open Wpm.Lib.Json hiding hexValue

/-! ### The counters -/

/-- The largest document, and the largest exponent that is added up. -/
def documentLimit : ℕ := 4 * 1024 * 1024

/-- The values that a digit loop of `wpm_json_version_one` gives its counters. -/
def onesCounters : ℤ → ℤ → Bytes → List ℤ
  | _, _, [] => []
  | position, nonzero, c :: p =>
    if isDigit c then
      if c = ch '0' then (position + 1) :: onesCounters (position + 1) nonzero p
      else if c ≠ ch '1' ∨ 0 ≤ nonzero then []
      else position :: (position + 1) :: onesCounters (position + 1) position p
    else []

/-- The values that come up in the exponent loop. -/
def exponentCounters : ℤ → Bytes → List ℤ
  | _, [] => []
  | exponent, c :: p =>
    if isDigit c then
      let digit : ℤ := (c - ch '0').toNat
      digit :: (4 * 1024 * 1024 - digit) :: (4 * 1024 * 1024 - digit) / 10 ::
        if (4 * 1024 * 1024 - digit) / 10 < exponent then []
        else (exponent * 10) :: (exponent * 10 + digit) ::
          exponentCounters (exponent * 10 + digit) p
    else []

/-- The part of `wpm_json_version_one` behind the fraction. -/
def endCounters (digits nonzero : ℤ) (p : Bytes) : List ℤ :=
  (if cur p = ch 'e' ∨ cur p = ch 'E' then
    exponentCounters 0 (if cur p.tail = ch '-' ∨ cur p.tail = ch '+' then p.tail.tail else p.tail)
    else []) ++
  match jsonExponent p with
  | none => []
  | some (exponent, _) =>
    [digits - nonzero, digits - nonzero - 1, exponent, digits - nonzero - 1 + exponent]

/-- Every value that an `int` of `wpm_json_version_one` can take on the text of the field; a run that
returns early takes fewer. -/
def valueCounters (value : Bytes) : List ℤ :=
  onesCounters 0 (-1) value ++
  match scanOnes 0 (-1) value with
  | none => []
  | some (digits, nonzero, p) =>
    if cur p ≠ ch '.' then endCounters digits nonzero p
    else onesCounters digits nonzero p.tail ++
      match scanOnes digits nonzero p.tail with
      | none => []
      | some (_, nonzero, p) => endCounters digits nonzero p

def versionCounters (text : Bytes) : List ℤ :=
  match jsonField text (str "version") with
  | none => []
  | some value => valueCounters value

/-- The counters of a digit loop go up with the text. -/
lemma scanOnes_bounds : ∀ {p r : Bytes} {position nonzero position' nonzero' : ℤ},
    scanOnes position nonzero p = some (position', nonzero', r) →
      position ≤ position' ∧ position' + r.length ≤ position + p.length ∧
        (nonzero' = nonzero ∨ position ≤ nonzero' ∧ nonzero' < position')
  | [], r, position, nonzero, position', nonzero', h => by
    simp only [scanOnes, Option.some.injEq, Prod.mk.injEq] at h
    obtain ⟨rfl, rfl, rfl⟩ := h
    exact ⟨le_rfl, le_rfl, .inl rfl⟩
  | c :: p, r, position, nonzero, position', nonzero', h => by
    unfold scanOnes at h
    have hlength : ((c :: p).length : ℤ) = p.length + 1 := by simp
    split_ifs at h
    · have hb := scanOnes_bounds h
      omega
    · have hb := scanOnes_bounds h
      omega
    · simp only [Option.some.injEq, Prod.mk.injEq] at h
      obtain ⟨rfl, rfl, rfl⟩ := h
      exact ⟨le_rfl, le_rfl, .inl rfl⟩

lemma onesCounters_bounds : ∀ {p : Bytes} {position nonzero : ℤ},
    ∀ v ∈ onesCounters position nonzero p, position ≤ v ∧ v ≤ position + p.length
  | [], _, _, _, hv => absurd hv List.not_mem_nil
  | c :: p, position, nonzero, v, hv => by
    unfold onesCounters at hv
    have hlength : ((c :: p).length : ℤ) = p.length + 1 := by simp
    split_ifs at hv
    · rcases List.mem_cons.1 hv with rfl | hv
      · omega
      · have hb := onesCounters_bounds v hv
        omega
    · exact absurd hv List.not_mem_nil
    · rcases List.mem_cons.1 hv with rfl | hv
      · omega
      · rcases List.mem_cons.1 hv with rfl | hv
        · omega
        · have hb := onesCounters_bounds v hv
          omega
    · exact absurd hv List.not_mem_nil

lemma toNat_digit {c : UInt8} (h : isDigit c = true) : (c - ch '0').toNat ≤ 9 := digitValue_le h

/-- No more than the limit is added up. -/
lemma exponentCounters_bounds : ∀ {p : Bytes} {exponent : ℤ}, 0 ≤ exponent →
    ∀ v ∈ exponentCounters exponent p, 0 ≤ v ∧ v ≤ documentLimit
  | [], _, _, _, hv => absurd hv List.not_mem_nil
  | c :: p, exponent, he, v, hv => by
    unfold exponentCounters at hv
    unfold documentLimit
    by_cases hc : isDigit c = true
    · have hdigit := toNat_digit hc
      rw [if_pos hc] at hv
      simp only [List.mem_cons] at hv
      rcases hv with rfl | rfl | rfl | hv
      · omega
      · omega
      · omega
      · split_ifs at hv with hlarge
        · exact absurd hv List.not_mem_nil
        · rcases List.mem_cons.1 hv with rfl | hv
          · omega
          · rcases List.mem_cons.1 hv with rfl | hv
            · omega
            · exact exponentCounters_bounds (by omega) v hv
    · rw [if_neg hc] at hv
      exact absurd hv List.not_mem_nil

lemma scanExponent_bounds : ∀ {p r : Bytes} {exponent x : ℤ}, 0 ≤ exponent →
    exponent ≤ documentLimit → scanExponent exponent p = some (x, r) → 0 ≤ x ∧ x ≤ documentLimit
  | [], r, exponent, x, he, hle, h => by
    simp only [scanExponent, Option.some.injEq, Prod.mk.injEq] at h
    omega
  | c :: p, r, exponent, x, he, hle, h => by
    unfold scanExponent at h
    by_cases hc : isDigit c = true
    · have hdigit := toNat_digit hc
      rw [if_pos hc] at h
      obtain ⟨hlarge, h⟩ := Option.ite_none_left_eq_some.1 h
      refine scanExponent_bounds ?_ ?_ h
      · omega
      · unfold documentLimit
        omega
    · rw [if_neg hc] at h
      simp only [Option.some.injEq, Prod.mk.injEq] at h
      omega

lemma jsonExponent_bounds {p r : Bytes} {x : ℤ} (h : jsonExponent p = some (x, r)) :
    -documentLimit ≤ x ∧ x ≤ documentLimit := by
  have hlimit : (0 : ℤ) ≤ documentLimit := Int.natCast_nonneg _
  by_cases he : cur p = ch 'e' ∨ cur p = ch 'E'
  · obtain ⟨-, h⟩ := Option.ite_none_right_eq_some.1 ((if_pos he).symm.trans h)
    obtain ⟨⟨y, r'⟩, hy, hx⟩ := Option.map_eq_some_iff.1 h
    have hb := scanExponent_bounds le_rfl hlimit hy
    simp only [Prod.mk.injEq] at hx
    split_ifs at hx <;> omega
  · have h := (if_neg he).symm.trans h
    simp only [Option.some.injEq, Prod.mk.injEq] at h
    omega

lemma endCounters_bounds {digits nonzero : ℤ} {p : Bytes} (hdigits : digits ≤ documentLimit)
    (hnonzero : -1 ≤ nonzero) (hle : nonzero ≤ documentLimit) (h0 : 0 ≤ digits) :
    ∀ v ∈ endCounters digits nonzero p, -2 ^ 31 ≤ v ∧ v < 2 ^ 31 := by
  intro v hv
  unfold endCounters at hv
  rcases List.mem_append.1 hv with hv | hv
  · have hb : 0 ≤ v ∧ v ≤ documentLimit := by
      split_ifs at hv
      · exact exponentCounters_bounds le_rfl v hv
      · exact exponentCounters_bounds le_rfl v hv
      · exact absurd hv List.not_mem_nil
    unfold documentLimit at hb
    omega
  · cases hexp : jsonExponent p with
    | none =>
      rw [hexp] at hv
      exact absurd hv List.not_mem_nil
    | some r =>
      obtain ⟨x, q⟩ := r
      have hb := jsonExponent_bounds hexp
      rw [hexp] at hv
      simp only [List.mem_cons, List.not_mem_nil, or_false] at hv
      unfold documentLimit at *
      omega

/-- **No counter overflows** on a value of up to 4 MiB. -/
lemma valueCounters_bounds {value : Bytes} (hsize : value.length ≤ documentLimit) :
    ∀ v ∈ valueCounters value, -2 ^ 31 ≤ v ∧ v < 2 ^ 31 := by
  have hlimit : documentLimit < 2 ^ 30 := by decide
  intro v hv
  unfold valueCounters at hv
  rcases List.mem_append.1 hv with hv | hv
  · have hb := onesCounters_bounds v hv
    omega
  cases hscan : scanOnes 0 (-1) value with
  | none =>
    rw [hscan] at hv
    exact absurd hv List.not_mem_nil
  | some t =>
    obtain ⟨digits, nonzero, p⟩ := t
    have hb := scanOnes_bounds hscan
    simp only [hscan] at hv
    have htail : p.tail.length ≤ p.length := by
      rw [List.length_tail]
      omega
    split_ifs at hv with hpoint
    · exact endCounters_bounds (by omega) (by omega) (by omega) (by omega) v hv
    · rcases List.mem_append.1 hv with hv | hv
      · have hb' := onesCounters_bounds v hv
        omega
      · cases hscan' : scanOnes digits nonzero p.tail with
        | none =>
          rw [hscan'] at hv
          exact absurd hv List.not_mem_nil
        | some t =>
          obtain ⟨places, nonzero', p'⟩ := t
          have hb' := scanOnes_bounds hscan'
          rw [hscan'] at hv
          exact endCounters_bounds (by omega) (by omega) (by omega) (by omega) v hv

/-! ### The digits -/

lemma scanOnes_stop {r : Bytes} (hr : isDigit (cur r) = false) (position nonzero : ℤ) :
    scanOnes position nonzero r = some (position, nonzero, r) := by
  cases r with
  | nil => rfl
  | cons c r =>
    rw [cur_cons] at hr
    rw [scanOnes, if_neg (by rw [hr]; exact Bool.false_ne_true)]

/-- The digits are scanned first, and then what is behind them. -/
lemma scanOnes_append {d : Bytes} (hd : Digits d) (r : Bytes) (position nonzero : ℤ) :
    scanOnes position nonzero (d ++ r) =
      (scanOnes position nonzero d).bind fun t => scanOnes t.1 t.2.1 r := by
  induction d generalizing position nonzero with
  | nil => rfl
  | cons c d ih =>
    have ih := ih fun c' hc' => hd c' (List.mem_cons_of_mem c hc')
    rw [List.cons_append, scanOnes, scanOnes, if_pos (hd c List.mem_cons_self),
      if_pos (hd c List.mem_cons_self), ih, ih]
    split_ifs <;> rfl

lemma scanOnes_zeros (a : ℕ) (r : Bytes) (position nonzero : ℤ) :
    scanOnes position nonzero (zeros a ++ r) = scanOnes (position + a) nonzero r := by
  induction a generalizing position with
  | zero => simp [zeros]
  | succ a ih =>
    have hcons : zeros (a + 1) ++ r = ch '0' :: (zeros a ++ r) := rfl
    rw [hcons, scanOnes, if_pos (by decide), if_pos rfl, ih, Nat.cast_succ, add_assoc,
      add_comm (1 : ℤ)]

lemma scanOnes_one (a m : ℕ) :
    scanOnes 0 (-1) (zeros a ++ ch '1' :: zeros m) = some ((a : ℤ) + 1 + m, (a : ℤ), []) := by
  have hzeros := scanOnes_zeros m [] ((0 : ℤ) + a + 1) (0 + a)
  rw [List.append_nil] at hzeros
  rw [scanOnes_zeros, scanOnes, if_pos (by decide), if_neg (by decide), if_neg (by decide), hzeros,
    scanOnes, zero_add]

/-- What has been scanned are zeros, with a single one among them. -/
lemma scanOnes_eq_some {d : Bytes} (hd : Digits d) : ∀ {position nonzero position' nonzero' : ℤ}
    {r : Bytes}, 0 ≤ position → scanOnes position nonzero d = some (position', nonzero', r) →
      position' = position + d.length ∧ r = [] ∧ (nonzero' = nonzero ∧ d = zeros d.length ∨
        nonzero < 0 ∧ ∃ a m, d = zeros a ++ ch '1' :: zeros m ∧ nonzero' = position + a) := by
  induction d with
  | nil =>
    intro position nonzero position' nonzero' r h0 h
    simp only [scanOnes, Option.some.injEq, Prod.mk.injEq] at h
    obtain ⟨rfl, rfl, rfl⟩ := h
    exact ⟨by simp, rfl, .inl ⟨rfl, rfl⟩⟩
  | cons c d ih =>
    intro position nonzero position' nonzero' r h0 h
    have ih := @ih fun c' hc' => hd c' (List.mem_cons_of_mem c hc')
    have hlength : ((c :: d).length : ℤ) = d.length + 1 := by simp
    rw [scanOnes, if_pos (hd c List.mem_cons_self)] at h
    by_cases hc : c = ch '0'
    · rw [if_pos hc] at h
      obtain ⟨hp, hr, hcases⟩ := ih (by omega) h
      refine ⟨by omega, hr, hcases.imp ?_ ?_⟩
      · rintro ⟨rfl, hzero⟩
        refine ⟨rfl, ?_⟩
        rw [hc, hzero, zeros, List.length_cons, List.length_replicate]
        rfl
      · rintro ⟨hneg, a, m, rfl, rfl⟩
        refine ⟨hneg, a + 1, m, ?_, by push_cast; ring⟩
        rw [hc]
        rfl
    · rw [if_neg hc] at h
      obtain ⟨hone, h⟩ := Option.ite_none_left_eq_some.1 h
      rw [not_or, not_not, not_le] at hone
      obtain ⟨hp, hr, hcases⟩ := ih (by omega) h
      refine ⟨by omega, hr, .inr ⟨hone.2, 0, d.length, ?_, ?_⟩⟩
      · obtain ⟨-, hzero⟩ | ⟨hneg, -⟩ := hcases
        · rw [hone.1, ← hzero]
          rfl
        · omega
      · obtain ⟨rfl, -⟩ | ⟨hneg, -⟩ := hcases
        · simp
        · omega

/-- **The scan of all digits** finds the place of the one. -/
lemma scanOnes_iff {d : Bytes} (hd : Digits d) {nonzero : ℤ} :
    ((∃ n r, scanOnes 0 (-1) d = some (n, nonzero, r)) ∧ 0 ≤ nonzero) ↔
      ∃ a m, d = zeros a ++ ch '1' :: zeros m ∧ nonzero = a := by
  constructor
  · rintro ⟨⟨n, r, h⟩, h0⟩
    obtain ⟨-, -, ⟨rfl, -⟩ | ⟨-, a, m, ha, hn⟩⟩ := scanOnes_eq_some hd le_rfl h
    · exact absurd h0 (by decide)
    · exact ⟨a, m, ha, by rw [hn, zero_add]⟩
  · rintro ⟨a, m, rfl, rfl⟩
    exact ⟨⟨_, _, scanOnes_one a m⟩, Int.natCast_nonneg a⟩

/-! ### The exponent -/

/-- The digits of an exponent are added up, unless they exceed the limit. -/
lemma scanExponent_append {d r : Bytes} (hd : Digits d) (hr : isDigit (cur r) = false) :
    ∀ {exponent : ℤ}, 0 ≤ exponent → exponent ≤ documentLimit →
      scanExponent exponent (d ++ r) = some (exponent * 10 ^ d.length + decValue d, r) ∨
        scanExponent exponent (d ++ r) = none ∧
          documentLimit < exponent * 10 ^ d.length + decValue d := by
  induction d with
  | nil =>
    intro exponent h0 hle
    refine .inl ?_
    rw [List.nil_append, List.length_nil, pow_zero, mul_one]
    cases r with
    | nil => simp [scanExponent, decValue]
    | cons c r =>
      rw [cur_cons] at hr
      rw [scanExponent, if_neg (by rw [hr]; exact Bool.false_ne_true)]
      simp [decValue]
  | cons c d ih =>
    intro exponent h0 hle
    have hc := hd c List.mem_cons_self
    have hdigit := toNat_digit hc
    have hvalue : exponent * 10 ^ (c :: d).length + decValue (c :: d) =
        (exponent * 10 + digitValue c) * 10 ^ d.length + decValue d := by
      rw [decValue_cons, List.length_cons]
      push_cast
      ring
    rw [hvalue, List.cons_append, scanExponent, if_pos hc]
    by_cases hlarge : (4 * 1024 * 1024 - (digitValue c : ℤ)) / 10 < exponent
    · refine .inr ⟨if_pos hlarge, ?_⟩
      have hbig : (documentLimit : ℤ) < exponent * 10 + digitValue c := by
        unfold documentLimit
        omega
      have hpow : (1 : ℤ) ≤ 10 ^ d.length := one_le_pow₀ (by norm_num)
      have hpos : (0 : ℤ) ≤ decValue d := Int.natCast_nonneg _
      have h10 : (0 : ℤ) ≤ exponent * 10 + digitValue c := by omega
      nlinarith
    · have hnext := @ih (fun c' hc' => hd c' (List.mem_cons_of_mem c hc'))
        (exponent * 10 + digitValue c) (by omega) (by unfold documentLimit; omega)
      exact hnext.imp (fun h => (if_neg hlarge).trans h) fun h => ⟨(if_neg hlarge).trans h.1, h.2⟩

/-- **The exponent is read**, or is too large for a document to balance it. -/
lemma jsonExponent_append {e r : Bytes} (he : Exponent e) (hr : isDigit (cur r) = false)
    (hr' : cur r ≠ ch 'e' ∧ cur r ≠ ch 'E') :
    jsonExponent (e ++ r) = some (exponentValue e, r) ∨
      jsonExponent (e ++ r) = none ∧ documentLimit < |exponentValue e| := by
  cases he with
  | none =>
    left
    rw [List.nil_append, jsonExponent, if_neg (by rintro (h | h); exacts [hr'.1 h, hr'.2 h])]
    rfl
  | @some c sign d hc hs hd =>
    obtain ⟨hne, hdigits⟩ := hd
    have hscan := @scanExponent_append d r hdigits hr 0 le_rfl (Int.natCast_nonneg _)
    rw [zero_mul, zero_add] at hscan
    obtain ⟨x, d', rfl⟩ := List.exists_cons_of_ne_nil hne
    have hx := hdigits x List.mem_cons_self
    have hplain : x ≠ ch '-' ∧ x ≠ ch '+' := ne_sign_of_isDigit hx
    have hpos : (0 : ℤ) ≤ decValue (x :: d') := Int.natCast_nonneg _
    -- the exponent behind its letter, whatever the sign
    have hread : ∀ (p : Bytes) (s : ℤ), (if cur p = ch '-' then (-1 : ℤ) else 1) = s →
        (if cur p = ch '-' ∨ cur p = ch '+' then p.tail else p) = x :: d' ++ r →
        jsonExponent (c :: p) = (scanExponent 0 (x :: d' ++ r)).map fun t => (s * t.1, t.2) := by
      intro p s hsign hp
      rw [jsonExponent, cur_cons, if_pos hc, List.tail_cons]
      subst hsign
      rw [← hp]
      refine if_pos ?_
      rw [hp]
      exact hx
    have hend : ∀ (p : Bytes) (s : ℤ), s = 1 ∨ s = -1 →
        jsonExponent (c :: p) = (scanExponent 0 (x :: d' ++ r)).map (fun t => (s * t.1, t.2)) →
        jsonExponent (c :: p) = some (s * decValue (x :: d'), r) ∨
          jsonExponent (c :: p) = none ∧ documentLimit < |s * decValue (x :: d')| := by
      intro p s hs h
      have habs : |s * (decValue (x :: d') : ℤ)| = decValue (x :: d') := by
        rcases hs with rfl | rfl
        · rw [one_mul, abs_of_nonneg hpos]
        · rw [neg_one_mul, abs_neg, abs_of_nonneg hpos]
      rw [h, habs]
      rcases hscan with hscan | ⟨hscan, hlarge⟩
      · exact .inl (by rw [hscan]; rfl)
      · exact .inr ⟨by rw [hscan]; rfl, hlarge⟩
    have hminus : ch '+' ≠ ch '-' := by decide
    rcases hs with rfl | rfl | rfl
    · have hvalue : exponentValue (c :: [] ++ x :: d') = 1 * decValue (x :: d') := by
        rw [List.cons_append, List.nil_append, exponentValue, signedValue, cur_cons,
          if_neg hplain.1, if_neg hplain.2, one_mul]
      rw [hvalue]
      exact hend _ 1 (.inl rfl) (hread _ 1 (if_neg hplain.1)
        (if_neg (by rintro (h | h); exacts [hplain.1 h, hplain.2 h])))
    · have hvalue : exponentValue (c :: [ch '+'] ++ x :: d') = 1 * decValue (x :: d') := by
        rw [List.cons_append, exponentValue, signedValue, List.singleton_append, cur_cons,
          if_neg hminus, if_pos rfl, List.tail_cons, one_mul]
      rw [hvalue]
      exact hend _ 1 (.inl rfl) (hread (ch '+' :: (x :: d' ++ r)) 1 (if_neg hminus)
        (if_pos (.inr rfl)))
    · have hvalue : exponentValue (c :: [ch '-'] ++ x :: d') = -1 * decValue (x :: d') := by
        rw [List.cons_append, exponentValue, signedValue, List.singleton_append, cur_cons,
          if_pos rfl, List.tail_cons, neg_one_mul]
      rw [hvalue]
      exact hend _ (-1) (.inr rfl) (hread (ch '-' :: (x :: d' ++ r)) (-1) (if_pos rfl)
        (if_pos (.inl rfl)))

/-! ### The number -/

lemma jsonVersionOne_eq (text : Bytes) : jsonVersionOne text =
    match jsonField text (str "version") with
    | none => false
    | some value => acceptsOne value := rfl

/-- The fraction behind the integer digits. -/
def scanFraction (digits nonzero : ℤ) (p : Bytes) : Option (ℤ × ℤ × Bytes) :=
  if cur p ≠ ch '.' then some (digits, nonzero, p)
  else if isDigit (cur p.tail) then scanOnes digits nonzero p.tail else none

lemma acceptsOne_iff {value : Bytes} : acceptsOne value = true ↔ isDigit (cur value) = true ∧
    ∃ digits nonzero p, scanOnes 0 (-1) value = some (digits, nonzero, p) ∧
      ¬(1 < digits ∧ cur value = ch '0') ∧ ∃ places nonzero' p',
        scanFraction digits nonzero p = some (places, nonzero', p') ∧ ∃ x q,
          jsonExponent p' = some (x, q) ∧ 0 ≤ nonzero' ∧ digits - nonzero' - 1 + x = 0 ∧
            (cur (jsonSpace q) = ch ',' ∨ cur (jsonSpace q) = ch '}') := by
  rw [acceptsOne, Bool.and_eq_true]
  refine and_congr_right fun _ => ?_
  cases scanOnes 0 (-1) value with
  | none => simp
  | some t =>
    obtain ⟨digits, nonzero, p⟩ := t
    rw [Bool.and_eq_true, decide_eq_true_eq]
    change _ ∧ (match scanFraction digits nonzero p with
      | none => false
      | some (_, nonzero, p) => _) = true ↔ _
    simp only [Option.some.injEq, Prod.mk.injEq]
    constructor
    · rintro ⟨hlead, h⟩
      refine ⟨digits, nonzero, p, ⟨rfl, rfl, rfl⟩, hlead, ?_⟩
      cases hfraction : scanFraction digits nonzero p with
      | none =>
        rw [hfraction] at h
        cases h
      | some t =>
        obtain ⟨places, nonzero', p'⟩ := t
        simp only [hfraction] at h
        refine ⟨places, nonzero', p', rfl, ?_⟩
        cases hexp : jsonExponent p' with
        | none =>
          rw [hexp] at h
          cases h
        | some r =>
          obtain ⟨x, q⟩ := r
          rw [hexp] at h
          exact ⟨x, q, rfl, of_decide_eq_true h⟩
    · rintro ⟨_, _, _, ⟨rfl, rfl, rfl⟩, hlead, places, nonzero', p', hfraction, x, q, hexp, h⟩
      refine ⟨hlead, ?_⟩
      simp only [hfraction, hexp]
      exact decide_eq_true h

lemma digits_of_integer {i : Bytes} (h : Integer i) : Digits i ∧ isDigit (cur i) = true ∧
    ¬(1 < (i.length : ℤ) ∧ cur i = ch '0') := by
  cases h with
  | zero =>
    refine ⟨fun c hc => ?_, by decide, by decide⟩
    rw [List.mem_singleton.1 hc]
    decide
  | @digits c d hc h0 hd =>
    refine ⟨fun c' hc' => ?_, hc, fun h => h0 h.2⟩
    rcases List.mem_cons.1 hc' with rfl | hc'
    · exact hc
    · exact hd c' hc'

lemma digits_of_fraction {f : Bytes} (h : Fraction f) : Digits f.tail := by
  cases h with
  | none => exact fun _ h => absurd h List.not_mem_nil
  | some hd => exact hd.2

/-- Where a number ends. -/
structure EndsNumber (r : Bytes) : Prop where
  digit : isDigit (cur r) = false
  point : cur r ≠ ch '.'
  lower : cur r ≠ ch 'e'
  upper : cur r ≠ ch 'E'

lemma exponent_append_cur {e r : Bytes} (he : Exponent e) (hr : EndsNumber r) :
    isDigit (cur (e ++ r)) = false ∧ cur (e ++ r) ≠ ch '.' := by
  cases he with
  | none => exact ⟨hr.digit, hr.point⟩
  | @some c sign d hc hs hd =>
    have hall : isDigit c = false ∧ c ≠ ch '.' := by rcases hc with rfl | rfl <;> decide
    exact hall

/-- The digits of the fraction are scanned behind those of the integer. -/
lemma scanFraction_append {f e r : Bytes} (hf : Fraction f) (he : Exponent e) (hr : EndsNumber r)
    (digits nonzero : ℤ) : scanFraction digits nonzero (f ++ (e ++ r)) =
      (scanOnes digits nonzero f.tail).map fun t => (t.1, t.2.1, e ++ r) := by
  obtain ⟨hdigit, hpoint⟩ := exponent_append_cur he hr
  cases hf with
  | none => exact if_pos hpoint
  | @some d hd =>
    have hstart : isDigit (cur (d ++ (e ++ r))) = true := by
      obtain ⟨c, d', rfl⟩ := List.exists_cons_of_ne_nil hd.1
      exact hd.2 c List.mem_cons_self
    rw [List.cons_append, scanFraction, cur_cons, if_neg (not_not.2 rfl), List.tail_cons,
      if_pos hstart, scanOnes_append hd.2, List.tail_cons]
    simp only [scanOnes_stop hdigit]
    cases scanOnes digits nonzero d <;> rfl

/-- Nothing behind the digits of the integer is taken for one. -/
lemma scanOnes_integer {i f e r : Bytes} (hi : Digits i) (hf : Fraction f) (he : Exponent e)
    (hr : EndsNumber r) : scanOnes 0 (-1) (i ++ (f ++ (e ++ r))) =
      (scanOnes 0 (-1) i).map fun t => (t.1, t.2.1, f ++ (e ++ r)) := by
  have hstop : isDigit (cur (f ++ (e ++ r))) = false := by
    cases hf with
    | none => exact (exponent_append_cur he hr).1
    | some hd => exact (by decide : isDigit (ch '.') = false)
  rw [scanOnes_append hi]
  simp only [scanOnes_stop hstop]
  cases scanOnes 0 (-1) i <;> rfl

/-- **A number is accepted** when its digits and its exponent say that it is one. -/
lemma acceptsOne_number {i f e r : Bytes} (hi : Integer i) (hf : Fraction f) (he : Exponent e)
    (hr : EndsNumber r) (hnext : cur (jsonSpace r) = ch ',' ∨ cur (jsonSpace r) = ch '}')
    (hsize : (i ++ f.tail).length ≤ documentLimit) :
    acceptsOne (i ++ (f ++ (e ++ r))) = true ↔
      (decValue (i ++ f.tail) : ℚ) * 10 ^ (exponentValue e - f.tail.length) = 1 := by
  obtain ⟨hdi, hstart, hlead⟩ := digits_of_integer hi
  have hdf := digits_of_fraction hf
  have hdigits : Digits (i ++ f.tail) := fun c hc =>
    (List.mem_append.1 hc).elim (hdi c) (hdf c)
  have hcur : cur (i ++ (f ++ (e ++ r))) = cur i := by
    cases hi <;> rfl
  have hexp := jsonExponent_append he hr.digit ⟨hr.lower, hr.upper⟩
  have hall := scanOnes_append hdi f.tail 0 (-1)
  have hlength : ((i ++ f.tail).length : ℤ) = i.length + f.tail.length := by
    rw [List.length_append, Nat.cast_add]
  rw [mantissa_eq_one_iff hdigits, acceptsOne_iff, hcur, scanOnes_integer hdi hf he hr]
  constructor
  · rintro ⟨-, digits, nonzero, p, hscan, -, places, nonzero', p', hfraction, x, q, hx, h0, hsum, -⟩
    obtain ⟨⟨digits, nonzero, r'⟩, hi', heq⟩ := Option.map_eq_some_iff.1 hscan
    obtain ⟨rfl, rfl, rfl⟩ : digits = _ ∧ nonzero = _ ∧ f ++ (e ++ r) = _ := by
      simpa only [Prod.mk.injEq] using heq
    rw [scanFraction_append hf he hr] at hfraction
    obtain ⟨⟨places, nonzero', r''⟩, hf', heq⟩ := Option.map_eq_some_iff.1 hfraction
    obtain ⟨rfl, rfl, rfl⟩ : places = _ ∧ nonzero' = _ ∧ e ++ r = _ := by
      simpa only [Prod.mk.injEq] using heq
    rw [hi', Option.bind_some, hf'] at hall
    obtain ⟨a, m, ha, rfl⟩ := (scanOnes_iff hdigits).1 ⟨⟨_, _, hall⟩, h0⟩
    obtain ⟨hn, -, -⟩ := scanOnes_eq_some hdi le_rfl hi'
    obtain rfl : x = exponentValue e := by
      rcases hexp with hexp | ⟨hexp, -⟩
      · rw [hexp] at hx
        exact (congrArg Prod.fst (Option.some.inj hx)).symm
      · rw [hexp] at hx
        cases hx
    refine ⟨a, m, ha, ?_⟩
    have hsplit := congrArg List.length ha
    simp only [zeros, List.length_append, List.length_cons, List.length_replicate] at hsplit
    omega
  · rintro ⟨a, m, ha, hm⟩
    have hsplit := congrArg List.length ha
    simp only [zeros, List.length_append, List.length_cons, List.length_replicate] at hsplit
    rw [ha, scanOnes_one] at hall
    obtain ⟨⟨digits, nonzero, r'⟩, hi', hf'⟩ := Option.bind_eq_some_iff.1 hall.symm
    obtain ⟨hn, -, -⟩ := scanOnes_eq_some hdi le_rfl hi'
    have hx : jsonExponent (e ++ r) = some (exponentValue e, r) := by
      refine hexp.resolve_right fun h => ?_
      have habs : |exponentValue e| ≤ documentLimit := by
        rw [abs_le]
        omega
      omega
    refine ⟨hstart, digits, nonzero, f ++ (e ++ r), by rw [hi']; rfl, ?_, a + 1 + m, a, e ++ r, ?_,
      exponentValue e, r, hx, Int.natCast_nonneg a, by omega, hnext⟩
    · rw [hn, zero_add]
      exact hlead
    · rw [scanFraction_append hf he hr, hf']
      rfl

/-! ### The document -/

/-- The first member of this name in a document whose root is an object, and what comes after the
value of the member. -/
structure FirstMember (wanted text : Bytes) (m : Member) (rest : Bytes) : Prop where
  splits : ∃ front behind after, RootObject (front ++ m :: behind) after text ∧
    (∀ m' ∈ front, ¬StringIs m'.key wanted) ∧
    rest = m.after ++ closing (ch '}') (behind.map Member.text) after
  named : StringIs m.key wanted

variable {text : Bytes} {m : Member} {rest value : Bytes}

lemma stringIs_version {wanted : Bytes} (hw : wanted = str "version") :
    wanted ≠ [] ∧ 0 ∉ wanted ∧ wanted.length < 32 := by
  subst hw
  decide

/-- The field of a document is the value of the first member. -/
lemma FirstMember.field (h : FirstMember (str "version") text m rest)
    (hsize : text.length ≤ sizeMax) : jsonField text (str "version") = some (m.value ++ rest) := by
  obtain ⟨⟨front, behind, after, hroot, hfront, rfl⟩, hnamed⟩ := h
  obtain ⟨hne, hzero, hlen⟩ := stringIs_version rfl
  exact hroot.jsonField_of_first hsize hne hzero hlen hnamed hfront

lemma exists_firstMember (h : Document text) (hsize : text.length ≤ sizeMax)
    (hfield : jsonField text (str "version") = some value) :
    ∃ m rest, FirstMember (str "version") text m rest := by
  classical
  obtain ⟨mark, before, v, after, hmark, hbefore, hv, hafter, rfl⟩ := h
  have hobject : ∃ ms, IsObject ms v := by
    obtain ⟨c, v', rfl, -⟩ := hv.exists_cons
    have hc : c = ch '{' := by
      by_contra hne
      rw [jsonField, jsonContent_append hmark hbefore hv, List.cons_append] at hfield
      cases (if_pos hne).symm.trans hfield
    subst hc
    exact hv.isObject
  obtain ⟨ms, hms⟩ := hobject
  have hroot : RootObject ms after (mark ++ before ++ v ++ after) :=
    ⟨mark, before, v, hmark, hbefore, hms, hafter, rfl⟩
  obtain ⟨hne, hzero, hlen⟩ := stringIs_version rfl
  cases hfind : ms.find? fun m => StringIs m.key (str "version") with
  | none =>
    have hmissing := hroot.jsonField_of_none hsize hne hzero hlen fun m hm => by
      simpa using List.find?_eq_none.1 hfind m hm
    rw [hmissing] at hfield
    cases hfield
  | some m =>
    obtain ⟨hm, front, behind, rfl, hfront⟩ := List.find?_eq_some_iff_append.1 hfind
    exact ⟨m, _, ⟨front, behind, after, hroot, fun m' hm' => by simpa using hfront m' hm', rfl⟩,
      of_decide_eq_true hm⟩

lemma FirstMember.length_le (h : FirstMember (str "version") text m rest) :
    (m.value ++ rest).length ≤ text.length := by
  obtain ⟨⟨front, behind, after, ⟨mark, before, v, -, -, hobject, -, rfl⟩, -, rfl⟩, -⟩ := h
  have hlt := hobject.length_member_lt after
  simp only [Member.text, List.length_append, List.length_cons] at hlt ⊢
  omega

lemma FirstMember.valid (h : FirstMember (str "version") text m rest) : Value m.value ∧
    EndsNumber rest ∧ (cur (jsonSpace rest) = ch ',' ∨ cur (jsonSpace rest) = ch '}') := by
  obtain ⟨⟨front, behind, after, ⟨mark, before, v, -, -, hobject, -, -⟩, -, rfl⟩, -⟩ := h
  have hframed := hobject.framed m (by simp)
  have hclosing : ∃ c q, closing (ch '}') (behind.map Member.text) after = c :: q ∧
      (c = ch ',' ∨ c = ch '}') := by
    cases behind with
    | nil => exact ⟨_, _, rfl, .inr rfl⟩
    | cons a l => exact ⟨_, _, rfl, .inl rfl⟩
  obtain ⟨c, q, hc, hcases⟩ := hclosing
  refine ⟨hobject.value m (by simp), ?_, ?_⟩
  · have hends : ∀ d : UInt8, (isWhitespace d = true ∨ d = ch ',' ∨ d = ch '}') →
        isDigit d = false ∧ d ≠ ch '.' ∧ d ≠ ch 'e' ∧ d ≠ ch 'E' := by
      have hall : ∀ d : Fin 256, (isWhitespace (UInt8.ofFin d) = true ∨ UInt8.ofFin d = ch ',' ∨
          UInt8.ofFin d = ch '}') → isDigit (UInt8.ofFin d) = false ∧ UInt8.ofFin d ≠ ch '.' ∧
          UInt8.ofFin d ≠ ch 'e' ∧ UInt8.ofFin d ≠ ch 'E' := by decide +kernel
      exact fun d => hall d.toFin
    have hcur : isWhitespace (cur (m.after ++ c :: q)) = true ∨ cur (m.after ++ c :: q) = ch ',' ∨
        cur (m.after ++ c :: q) = ch '}' := by
      cases hafter : m.after with
      | nil => exact .inr hcases
      | cons d l => exact .inl (hframed.after d (hafter ▸ List.mem_cons_self))
    rw [hc]
    obtain ⟨h1, h2, h3, h4⟩ := hends _ hcur
    exact ⟨h1, h2, h3, h4⟩
  · rw [jsonSpace_append hframed.after (lead_closing (by decide) _ _), hc]
    exact hcases

/-- A value that starts with a digit is a number without a sign. -/
lemma isNumber_of_digit {v : Bytes} (h : Value v) (hd : isDigit (cur v) = true) : IsNumber v := by
  cases h with
  | number h => exact h
  | string h =>
    obtain ⟨b, -, rfl⟩ := h
    exact absurd hd (by rw [List.cons_append, cur_cons]; decide)
  | literal h => rcases h with rfl | rfl | rfl <;> exact absurd hd (by decide)
  | _ => exact absurd hd (by rw [List.cons_append, cur_cons]; decide)

/-- **The version of a document is one** when the first root member of that name is a number without
a sign whose value is one; and no counter overflows. -/
theorem jsonVersionOne_iff (h : Document text) (hsize : text.length ≤ 4 * 1024 * 1024) :
    (jsonVersionOne text = true ↔ ∃ m rest, FirstMember (str "version") text m rest ∧
      cur m.value ≠ ch '-' ∧ NumberIs m.value 1) ∧
    ∀ v ∈ versionCounters text, -2 ^ 31 ≤ v ∧ v < 2 ^ 31 := by
  have hlimit : text.length ≤ documentLimit := hsize
  have hsizeMax : text.length ≤ sizeMax := hsize.trans (by decide)
  -- what is accepted of a number without a sign
  have hnumber : ∀ {m rest i f e}, FirstMember (str "version") text m rest → Integer i →
      Fraction f → Exponent e → m.value = i ++ f ++ e → (acceptsOne (m.value ++ rest) = true ↔
        (decValue (i ++ f.tail) : ℚ) * 10 ^ (exponentValue e - f.tail.length) = 1) := by
    intro m rest i f e hm hi hf he hvalue
    obtain ⟨-, hends, hnext⟩ := hm.valid
    have hle := hm.length_le
    rw [hvalue] at hle ⊢
    have htail : f.tail.length ≤ f.length := by
      rw [List.length_tail]
      omega
    simp only [List.length_append] at hle
    rw [List.append_assoc, List.append_assoc]
    exact acceptsOne_number hi hf he hends hnext (by rw [List.length_append]; omega)
  refine ⟨⟨fun hone => ?_, ?_⟩, fun v hv => ?_⟩
  · rw [jsonVersionOne_eq] at hone
    cases hfield : jsonField text (str "version") with
    | none =>
      rw [hfield] at hone
      cases hone
    | some value =>
      obtain ⟨m, rest, hm⟩ := exists_firstMember h hsizeMax hfield
      rw [hm.field hsizeMax] at hone
      have hdigit : isDigit (cur m.value) = true := by
        have hd := (acceptsOne_iff.1 hone).1
        rwa [cur_value_append hm.valid.1] at hd
      obtain ⟨minus, i, f, e, hminus, hi, hf, he, hvalue⟩ :=
        isNumber_of_digit hm.valid.1 hdigit
      have hsign : cur m.value ≠ ch '-' := fun hc => by
        rw [hc] at hdigit
        exact absurd hdigit (by decide)
      obtain rfl : minus = [] := hminus.resolve_right fun hc => hsign (by rw [hvalue, hc]; rfl)
      rw [List.nil_append] at hvalue
      refine ⟨m, rest, hm, hsign, [], i, f, e, .inl rfl, hi, hf, he, hvalue, ?_⟩
      rw [if_pos rfl, one_mul]
      exact ((hnumber hm hi hf he hvalue).1 hone).symm
  · rintro ⟨m, rest, hm, hsign, minus, i, f, e, hminus, hi, hf, he, hvalue, hq⟩
    obtain rfl : minus = [] := hminus.resolve_right fun hc => hsign (by rw [hvalue, hc]; rfl)
    rw [if_pos rfl, one_mul] at hq
    rw [jsonVersionOne_eq, hm.field hsizeMax]
    exact (hnumber hm hi hf he hvalue).2 hq.symm
  · unfold versionCounters at hv
    cases hfield : jsonField text (str "version") with
    | none =>
      rw [hfield] at hv
      exact absurd hv List.not_mem_nil
    | some value =>
      obtain ⟨m, rest, hm⟩ := exists_firstMember h hsizeMax hfield
      rw [hm.field hsizeMax] at hv
      exact valueCounters_bounds (hm.length_le.trans hlimit) v hv

/-- A spelling of one whose digits and exponent have to be balanced. -/
def sampleVersion : Bytes := str "\x7b\"version\": 0.010e+2, \"a\": [\x7b\"version\": 2\x7d]\x7d"

theorem jsonVersionOne_sample :
    (∃ m rest, FirstMember (str "version") sampleVersion m rest ∧ cur m.value ≠ ch '-' ∧
      NumberIs m.value 1) ∧ ∀ v ∈ versionCounters sampleVersion, -2 ^ 31 ≤ v ∧ v < 2 ^ 31 := by
  have hdocument : Document sampleVersion :=
    document_of_documentValid (by decide +kernel) (by decide +kernel) (by decide +kernel)
  have h := jsonVersionOne_iff hdocument (by decide +kernel)
  exact ⟨h.1.1 (by decide +kernel), h.2⟩

end Wpm.JsonInput
