import Wpm.Lib.CString
import Mathlib.Tactic.Ring
import Mathlib.Tactic.Linarith

/-!
The order of decimal numbers, by their digits.

Of two runs of digits with no leading zero the longer one writes the larger number, and two of the
same length are in the order of their bytes.
-/

namespace Wpm.Lib.Decimal

open Wpm.Lib.CString

/-- Every byte is a digit. -/
def Digits (s : Bytes) : Prop := ∀ c ∈ s, isDigit c = true

/-- The value of a digit. -/
def digitValue (c : UInt8) : ℕ := (c - ch '0').toNat

lemma isDigit_iff {c : UInt8} : isDigit c = true ↔ 48 ≤ c.toNat ∧ c.toNat ≤ 57 := by
  rw [isDigit, decide_eq_true_iff, UInt8.le_iff_toNat_le, UInt8.le_iff_toNat_le]
  rfl

lemma digitValue_eq {c : UInt8} (h : isDigit c = true) : digitValue c = c.toNat - 48 :=
  UInt8.toNat_sub_of_le _ _ (UInt8.le_iff_toNat_le.2 (isDigit_iff.1 h).1)

lemma digitValue_le {c : UInt8} (h : isDigit c = true) : digitValue c ≤ 9 := by
  have hc := isDigit_iff.1 h
  rw [digitValue_eq h]
  omega

/-- Digits are in the order of their values. -/
lemma compare_digitValue {c d : UInt8} (hc : isDigit c = true) (hd : isDigit d = true) :
    compare c d = compare (digitValue c) (digitValue d) := by
  have hc48 := isDigit_iff.1 hc
  have hd48 := isDigit_iff.1 hd
  rw [digitValue_eq hc, digitValue_eq hd]
  have hlt : c < d ↔ c.toNat - 48 < d.toNat - 48 := by
    rw [UInt8.lt_iff_toNat_lt]
    omega
  have heq : c = d ↔ c.toNat - 48 = d.toNat - 48 := by
    rw [← UInt8.toNat_inj]
    omega
  change compareOfLessAndEq c d = compareOfLessAndEq (c.toNat - 48) (d.toNat - 48)
  simp only [compareOfLessAndEq, hlt, heq]

lemma foldl_decValue (s : Bytes) : ∀ n : ℕ,
    s.foldl (fun n c => 10 * n + (c - ch '0').toNat) n = n * 10 ^ s.length + decValue s := by
  induction s with
  | nil => exact fun n => by simp [decValue]
  | cons c s ih =>
    intro n
    have hc : decValue (c :: s) = (10 * 0 + (c - ch '0').toNat) * 10 ^ s.length + decValue s := ih _
    rw [List.foldl_cons, ih, hc, List.length_cons]
    ring

lemma decValue_cons (c : UInt8) (s : Bytes) :
    decValue (c :: s) = digitValue c * 10 ^ s.length + decValue s := by
  rw [decValue, List.foldl_cons, foldl_decValue, digitValue]
  ring

lemma decValue_lt {s : Bytes} (h : Digits s) : decValue s < 10 ^ s.length := by
  induction s with
  | nil => decide
  | cons c s ih =>
    have hc := digitValue_le (h c List.mem_cons_self)
    have hs := ih fun d hd => h d (List.mem_cons_of_mem _ hd)
    rw [decValue_cons, List.length_cons, pow_succ]
    nlinarith [Nat.zero_le (10 ^ s.length)]

/-- A run of digits that starts with no zero. -/
lemma le_decValue {c : UInt8} {s : Bytes} (hc : isDigit c = true) (h0 : c ≠ ch '0') :
    10 ^ s.length ≤ decValue (c :: s) := by
  have hpos : 1 ≤ digitValue c := by
    have hc48 := isDigit_iff.1 hc
    have hne : c.toNat ≠ 48 := fun he => h0 (UInt8.toNat_inj.1 he)
    rw [digitValue_eq hc]
    omega
  rw [decValue_cons]
  nlinarith [Nat.zero_le (10 ^ s.length), Nat.zero_le (decValue s)]

/-- What the leading digit decides. -/
lemma compare_lead {x y u v m : ℕ} (hu : u < m) (hv : v < m) :
    compare (x * m + u) (y * m + v) = (compare x y).then (compare u v) := by
  rcases Nat.lt_trichotomy x y with h | h | h
  · rw [Nat.compare_eq_lt.2 h]
    exact Nat.compare_eq_lt.2 (by nlinarith)
  · subst h
    rw [Nat.compare_eq_eq.2 rfl, Ordering.eq_then]
    rcases Nat.lt_trichotomy u v with h | h | h
    · rw [Nat.compare_eq_lt.2 h, Nat.compare_eq_lt.2 (by omega)]
    · rw [h, Nat.compare_eq_eq.2 rfl, Nat.compare_eq_eq.2 rfl]
    · rw [Nat.compare_eq_gt.2 h, Nat.compare_eq_gt.2 (by omega)]
  · rw [Nat.compare_eq_gt.2 h]
    exact Nat.compare_eq_gt.2 (by nlinarith)

/-- **Digits of the same length** are in the order of the numbers. -/
lemma compare_decValue : ∀ {a b : Bytes}, Digits a → Digits b → a.length = b.length →
    compare a b = compare (decValue a) (decValue b)
  | [], [], _, _, _ => rfl
  | [], _ :: _, _, _, h => absurd h (by simp)
  | _ :: _, [], _, _, h => absurd h (by simp)
  | c :: a, d :: b, ha, hb, h => by
    have ha' : Digits a := fun x hx => ha x (List.mem_cons_of_mem _ hx)
    have hb' : Digits b := fun x hx => hb x (List.mem_cons_of_mem _ hx)
    have hlen : a.length = b.length := Nat.succ.inj h
    rw [List.compare_eq_compareLex, List.compareLex_cons_cons, ← List.compare_eq_compareLex,
      decValue_cons, decValue_cons, hlen, compare_lead (hlen ▸ decValue_lt ha') (decValue_lt hb'),
      compare_digitValue (ha c List.mem_cons_self) (hb d List.mem_cons_self),
      compare_decValue ha' hb' hlen]

/-- A run of digits without leading zeros, except for the number zero. -/
def NoLeadingZero : Bytes → Prop
  | c :: _ :: _ => c ≠ ch '0'
  | _ => True

/-- **A longer run of digits** is the larger number. -/
lemma decValue_lt_of_length_lt {a b : Bytes} (ha : Digits a) (hb : Digits b) (hne : a ≠ [])
    (h0 : NoLeadingZero b) (h : a.length < b.length) : decValue a < decValue b := by
  match b, hb, h0, h with
  | [], _, _, h => exact absurd h (by simp)
  | [_], _, _, h =>
    exact absurd (List.eq_nil_of_length_eq_zero (Nat.lt_one_iff.1 h)) hne
  | c :: d :: b, hb, h0, h =>
    calc decValue a < 10 ^ a.length := decValue_lt ha
      _ ≤ 10 ^ (d :: b).length := Nat.pow_le_pow_right (by decide) (Nat.lt_succ_iff.1 h)
      _ ≤ decValue (c :: d :: b) := le_decValue (hb c List.mem_cons_self) h0

/-! ### Printing -/

/-- The characters of `%d`. -/
def printInt (n : ℤ) : Bytes :=
  (if n < 0 then [ch '-'] else []) ++ (Nat.toDigits 10 n.natAbs).map ch

/-- The digits are printed as the bytes that they are. -/
lemma toNat_ch_of_mem_toDigits {n : ℕ} {d : Char} (h : d ∈ Nat.toDigits 10 n) :
    (ch d).toNat = d.toNat ∧ isDigit (ch d) = true := by
  have hrange := Nat.isDigit_of_mem_toDigits (by decide) (by decide) h
  simp only [Char.isDigit, Bool.and_eq_true, decide_eq_true_eq] at hrange
  have hnat : 48 ≤ d.toNat ∧ d.toNat ≤ 57 := ⟨hrange.1, hrange.2⟩
  have hbyte : (ch d).toNat = d.toNat := by
    rw [ch, UInt8.toNat_ofNat']
    omega
  rw [isDigit_iff, hbyte]
  exact ⟨rfl, hnat⟩

/-- No other characters are printed than digits and a sign. -/
lemma mem_printInt {n : ℤ} {c : UInt8} (h : c ∈ printInt n) : c = ch '-' ∨ isDigit c = true := by
  rcases List.mem_append.1 h with hsign | hdigit
  · left
    split_ifs at hsign with hneg
    · exact List.mem_singleton.1 hsign
    · exact absurd hsign List.not_mem_nil
  · right
    obtain ⟨d, hd, rfl⟩ := List.mem_map.1 hdigit
    exact (toNat_ch_of_mem_toDigits hd).2

lemma foldl_decValue_map {ds : List Char}
    (h : ∀ d ∈ ds, (ch d).toNat = d.toNat ∧ isDigit (ch d) = true) (n : ℕ) :
    (ds.map ch).foldl (fun n c => 10 * n + (c - ch '0').toNat) n = Nat.ofDigitChars 10 ds n := by
  induction ds generalizing n with
  | nil => rfl
  | cons d ds ih =>
    obtain ⟨⟨hbyte, hdigit⟩, hds⟩ := List.forall_mem_cons.1 h
    have hvalue : (ch d - ch '0').toNat = d.toNat - '0'.toNat :=
      (digitValue_eq hdigit).trans (by rw [hbyte]; rfl)
    rw [List.map_cons, List.foldl_cons, hvalue, Nat.ofDigitChars_cons]
    exact ih hds _

/-- **The digits of a number have its value.** -/
theorem decValue_toDigits (n : ℕ) : decValue ((Nat.toDigits 10 n).map ch) = n :=
  (foldl_decValue_map (fun _ hd => toNat_ch_of_mem_toDigits hd) 0).trans
    Nat.ofDigitChars_ten_toDigits

/-- **`strtol` reads what is printed**, within the range of a `long`. -/
theorem strtol_printInt {n : ℤ} (hlow : -longMax - 1 ≤ n) (hhigh : n ≤ longMax) :
    strtol (printInt n) = (n, []) := by
  have hall : ∀ c ∈ (Nat.toDigits 10 n.natAbs).map ch, isDigit c = true := by
    intro c hc
    obtain ⟨d, hd, rfl⟩ := List.mem_map.1 hc
    exact (toNat_ch_of_mem_toDigits hd).2
  have hne : (Nat.toDigits 10 n.natAbs).map ch ≠ [] := fun h =>
    Nat.toDigits_ne_nil (List.map_eq_nil_iff.1 h)
  have hvalue : decValue ((Nat.toDigits 10 n.natAbs).map ch) = n.natAbs := decValue_toDigits _
  have hsign : ∀ sign : ℤ, sign * n.natAbs = n →
      max (-longMax - 1) (min longMax (sign * n.natAbs)) = n := by
    intro sign hsign
    rw [hsign, min_eq_right hhigh, max_eq_right hlow]
  rw [printInt]
  generalize (Nat.toDigits 10 n.natAbs).map ch = digits at hall hne hvalue ⊢
  have htake : digits.takeWhile isDigit = digits := List.takeWhile_eq_self_iff.2 hall
  have hdrop : digits.dropWhile isDigit = [] := List.dropWhile_eq_nil_iff.2 hall
  unfold strtol
  by_cases hneg : n < 0
  · have hspace : isSpace (ch '-') = false := by decide
    rw [if_pos hneg, List.singleton_append, List.dropWhile_cons_of_neg (by rw [hspace]; decide)]
    simp only [cur_cons, true_or, if_true, List.tail_cons, htake, hdrop, if_neg hne, hvalue]
    rw [hsign (-1) (by omega)]
  · rw [if_neg hneg, List.nil_append]
    obtain ⟨c, rest, rfl⟩ := List.exists_cons_of_ne_nil hne
    have hc := hall c List.mem_cons_self
    obtain ⟨hminus, hplus⟩ := ne_sign_of_isDigit hc
    rw [List.dropWhile_cons_of_neg (by rw [isSpace_eq_false_of_isDigit hc]; decide)]
    simp only [cur_cons, hminus, hplus, or_self, if_false, htake, hdrop, if_neg hne, hvalue]
    rw [hsign 1 (by omega)]

end Wpm.Lib.Decimal
