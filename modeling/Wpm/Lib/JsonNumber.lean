import Mathlib.Algebra.Order.Field.Power
import Mathlib.Data.Rat.Cast.Defs
import Mathlib.Tactic.Positivity
import Wpm.Lib.Decimal
import Wpm.Lib.Json

/-!
The numbers of JSON, as rationals.

A number is the value of its digits, moved by its exponent and by the length of its fraction. It is
one exactly when a single digit is not zero, that one is a `1`, and it is moved to the place of the
ones (`mantissa_eq_one_iff`).
-/

namespace Wpm.Lib.Json

open Wpm.Lib.CString Wpm.Lib.Decimal

/-- What the digits of an exponent write, with a sign in front of them or not. -/
def signedValue (d : Bytes) : ℤ :=
  if cur d = ch '-' then -(decValue d.tail : ℤ)
  else if cur d = ch '+' then decValue d.tail
  else decValue d

/-- What the exponent of a number writes; without one it is zero. -/
def exponentValue : Bytes → ℤ
  | [] => 0
  | _ :: d => signedValue d

/-- **A number token writes this number.** -/
def NumberIs (s : Bytes) (q : ℚ) : Prop := ∃ minus i f e, (minus = [] ∨ minus = [ch '-']) ∧
  Integer i ∧ Fraction f ∧ Exponent e ∧ s = minus ++ i ++ f ++ e ∧
    q = (if minus = [] then 1 else -1) * (decValue (i ++ f.tail) : ℚ) *
      10 ^ (exponentValue e - f.tail.length)

/-! ### Digits -/

def zeros (n : ℕ) : Bytes := List.replicate n (ch '0')

lemma decValue_concat (d : Bytes) (c : UInt8) :
    decValue (d ++ [c]) = 10 * decValue d + digitValue c := List.foldl_concat ..

lemma eq_of_digitValue {c d : UInt8} (hc : isDigit c = true) (hd : isDigit d = true)
    (h : digitValue c = digitValue d) : c = d := by
  have hc48 := isDigit_iff.1 hc
  have hd48 := isDigit_iff.1 hd
  rw [digitValue_eq hc, digitValue_eq hd] at h
  rw [← UInt8.toNat_inj]
  omega

lemma decValue_zeros (n : ℕ) : decValue (zeros n) = 0 := by
  induction n with
  | zero => rfl
  | succ n ih =>
    rw [zeros, List.replicate_succ', decValue_concat]
    change 10 * decValue (zeros n) + digitValue (ch '0') = 0
    rw [ih]
    rfl

lemma decValue_one (a m : ℕ) : decValue (zeros a ++ ch '1' :: zeros m) = 10 ^ m := by
  induction m with
  | zero =>
    change decValue (zeros a ++ [ch '1']) = 1
    rw [decValue_concat, decValue_zeros]
    rfl
  | succ m ih =>
    have hsucc : zeros a ++ ch '1' :: zeros (m + 1) = zeros a ++ ch '1' :: zeros m ++ [ch '0'] := by
      rw [zeros, zeros, zeros, List.replicate_succ', List.append_assoc, List.cons_append]
    rw [hsucc, decValue_concat, ih, pow_succ']
    rfl

lemma eq_zeros {d : Bytes} (hd : Digits d) (h : decValue d = 0) : d = zeros d.length := by
  refine List.eq_replicate_iff.2 ⟨rfl, fun c hc => ?_⟩
  by_contra h0
  obtain ⟨front, back, rfl⟩ := List.append_of_mem hc
  have hback := @le_decValue c back (hd c hc) h0
  have hfront := foldl_decValue (c :: back) (decValue front)
  rw [decValue, List.foldl_append] at h
  rw [decValue] at hfront
  rw [hfront] at h
  have hpos : 0 < 10 ^ back.length := by positivity
  omega

/-- **Digits that write a power of ten** are zeros around a one. -/
lemma eq_one_of_decValue {d : Bytes} (hd : Digits d) : ∀ {m : ℕ}, decValue d = 10 ^ m →
    ∃ a, d = zeros a ++ ch '1' :: zeros m := by
  induction d using List.reverseRecOn with
  | nil =>
    intro m h
    have hpos : 0 < 10 ^ m := by positivity
    exact absurd h hpos.ne
  | append_singleton d c ih =>
    intro m h
    have hc := hd c (List.mem_append_right _ List.mem_cons_self)
    have hd' : Digits d := fun c hc => hd c (List.mem_append_left _ hc)
    have hle := digitValue_le hc
    rw [decValue_concat] at h
    cases m with
    | zero =>
      rw [pow_zero] at h
      have hzero : decValue d = 0 := by omega
      obtain rfl : c = ch '1' := eq_of_digitValue hc (by decide) (show digitValue c = 1 by omega)
      exact ⟨d.length, by rw [← eq_zeros hd' hzero]; rfl⟩
    | succ m =>
      rw [pow_succ'] at h
      obtain rfl : c = ch '0' := eq_of_digitValue hc (by decide) (show digitValue c = 0 by omega)
      obtain ⟨a, rfl⟩ := ih hd' (show decValue d = 10 ^ m by omega)
      refine ⟨a, ?_⟩
      rw [zeros, zeros, zeros, List.replicate_succ', List.append_assoc, List.cons_append]

/-- **A number without a sign is one** when its digits are zeros around a one, which the exponent
and the fraction leave at the place of the ones. -/
theorem mantissa_eq_one_iff {d : Bytes} (hd : Digits d) {exponent : ℤ} {k : ℕ} :
    (decValue d : ℚ) * 10 ^ (exponent - k) = 1 ↔
      ∃ a m, d = zeros a ++ ch '1' :: zeros m ∧ m + exponent = k := by
  constructor
  · intro h
    have hne : decValue d ≠ 0 := fun h0 => by
      rw [h0, Nat.cast_zero, zero_mul] at h
      exact zero_ne_one h
    have hle : exponent - k ≤ 0 := by
      by_contra hpos
      have hone : (1 : ℚ) ≤ decValue d := by exact_mod_cast Nat.one_le_iff_ne_zero.2 hne
      have hten : (1 : ℚ) < 10 ^ (exponent - k) := one_lt_zpow₀ (by norm_num) (not_le.1 hpos)
      nlinarith
    obtain ⟨m, hm⟩ : ∃ m : ℕ, exponent - k = -(m : ℤ) := ⟨(k - exponent).toNat, by omega⟩
    rw [hm, zpow_neg, zpow_natCast] at h
    have hten : (10 : ℚ) ^ m ≠ 0 := by positivity
    have hpow : (decValue d : ℚ) = 10 ^ m := (mul_inv_eq_one₀ hten).1 h
    obtain ⟨a, ha⟩ := eq_one_of_decValue hd (m := m) (by exact_mod_cast hpow)
    exact ⟨a, m, ha, by omega⟩
  · rintro ⟨a, m, rfl, hm⟩
    have hzero : (m : ℤ) + (exponent - k) = 0 := by omega
    rw [decValue_one, Nat.cast_pow, Nat.cast_ofNat, ← zpow_natCast, ← zpow_add₀ (by norm_num),
      hzero, zpow_zero]

end Wpm.Lib.Json
