import Mathlib.Data.List.Basic
import Mathlib.Order.Basic
import Mathlib.Algebra.Order.Ring.Nat

/-!
Numerals in any base, and the reader that stops before its number grows too large. `readFrom` reads
a whole text, and `readDigits` the digits that a text starts with.
-/

namespace Wpm.Lib.Numeral

variable {α : Type*} (digit : α → Option ℕ) (base limit : ℕ)

/-- The number of the digits `ds`, after those that write `n`. -/
def value (n : ℕ) (ds : List ℕ) : ℕ := ds.foldl (fun n d => n * base + d) n

/-- The text is a numeral of `n`. -/
def Writes (text : List α) (n : ℕ) : Prop :=
  text ≠ [] ∧ ∃ ds : List ℕ, text.map digit = ds.map some ∧ (∀ d ∈ ds, d < base) ∧ value base 0 ds = n

/-- The number that starts with `n` and goes on with the digits of the text, if the digits are below
the base and the number never exceeds the limit. -/
def readFrom (n : ℕ) : List α → Option ℕ
  | [] => some n
  | c :: text =>
    match digit c with
    | none => none
    | some d => if base ≤ d ∨ (limit - d) / base < n then none else readFrom (n * base + d) text

/-- The number that starts with `n` and goes on with the digits that the text starts with, and the
text behind them. -/
def readRun (n : ℕ) : List α → Option (ℕ × List α)
  | [] => some (n, [])
  | c :: text =>
    match digit c with
    | none => some (n, c :: text)
    | some d => if base ≤ d ∨ (limit - d) / base < n then none else readRun (n * base + d) text

/-- The number of the digits that the text starts with, of which there must be one. -/
def readDigits (text : List α) : Option (ℕ × List α) :=
  if text.head?.bind digit = none then none else readRun digit base limit 0 text

/-- The numbers that a reader comes to, one for each digit that it takes. -/
def assigned (n : ℕ) : List α → List ℕ
  | [] => []
  | c :: text =>
    match digit c with
    | none => []
    | some d =>
      if base ≤ d ∨ (limit - d) / base < n then [] else (n * base + d) :: assigned (n * base + d) text

variable {digit base limit}

/-- A numeral is that of one number. -/
lemma Writes.unique {text : List α} {n m : ℕ} (hn : Writes digit base text n)
    (hm : Writes digit base text m) : n = m := by
  obtain ⟨-, ds, hds, -, rfl⟩ := hn
  obtain ⟨-, ds', hds', -, rfl⟩ := hm
  rw [List.map_injective_iff.2 (Option.some_injective ℕ) (hds.symm.trans hds')]

lemma le_value (hbase : 0 < base) : ∀ (ds : List ℕ) (n : ℕ), n ≤ value base n ds
  | [], n => Nat.le_refl n
  | d :: ds, n =>
    calc n ≤ n * base + d := Nat.le_add_right_of_le (Nat.le_mul_of_pos_right n hbase)
      _ ≤ value base (n * base + d) ds := le_value hbase ds _

/-- The test before a digit is taken. -/
lemma mul_add_le_iff {n d : ℕ} (hbase : 0 < base) (hd : d ≤ limit) :
    n * base + d ≤ limit ↔ ¬(limit - d) / base < n := by
  rw [Nat.not_lt, Nat.le_div_iff_mul_le hbase]
  omega

lemma readFrom_eq_some (hbase : 0 < base) (hlimit : base ≤ limit) :
    ∀ {text : List α} {n m : ℕ}, n ≤ limit → (readFrom digit base limit n text = some m ↔
      ∃ ds : List ℕ, text.map digit = ds.map some ∧ (∀ d ∈ ds, d < base) ∧ value base n ds = m ∧
        m ≤ limit)
  | [], n, m, hn => by
    constructor
    · intro h
      obtain rfl : n = m := by simpa [readFrom] using h
      exact ⟨[], rfl, by simp, rfl, hn⟩
    · rintro ⟨ds, hds, -, rfl, -⟩
      obtain rfl : ds = [] := by simpa using hds.symm
      rfl
  | c :: text, n, m, hn => by
    rw [readFrom]
    cases hc : digit c with
    | none =>
      refine iff_of_false (by simp) ?_
      rintro ⟨ds, hds, -⟩
      cases ds <;> simp [hc] at hds
    | some d =>
      have hcons : ∀ ds : List ℕ, (c :: text).map digit = ds.map some ↔
          ∃ ds', ds = d :: ds' ∧ text.map digit = ds'.map some := by
        intro ds
        cases ds with
        | nil => simp
        | cons d' ds => grind
      dsimp only
      by_cases hd : base ≤ d
      · rw [if_pos (.inl hd)]
        refine iff_of_false (by simp) ?_
        rintro ⟨ds, hds, hlt, -⟩
        obtain ⟨ds, rfl, -⟩ := (hcons ds).1 hds
        exact absurd (hlt d List.mem_cons_self) (by omega)
      · have hle := mul_add_le_iff (n := n) hbase (show d ≤ limit by omega)
        by_cases hfit : n * base + d ≤ limit
        · rw [if_neg (not_or.2 ⟨hd, hle.1 hfit⟩), readFrom_eq_some hbase hlimit hfit]
          constructor
          · rintro ⟨ds, hds, hlt, hm⟩
            have hall : ∀ x ∈ d :: ds, x < base := by
              intro x hx
              rcases List.mem_cons.1 hx with rfl | hx
              · omega
              · exact hlt x hx
            exact ⟨d :: ds, (hcons _).2 ⟨ds, rfl, hds⟩, hall, hm⟩
          · rintro ⟨ds, hds, hlt, hm⟩
            obtain ⟨ds, rfl, hds'⟩ := (hcons ds).1 hds
            exact ⟨ds, hds', fun x hx => hlt x (List.mem_cons_of_mem _ hx), hm⟩
        · rw [if_pos (.inr (not_not.1 fun h => hfit (hle.2 h)))]
          refine iff_of_false (by simp) ?_
          rintro ⟨ds, hds, -, rfl, hm⟩
          obtain ⟨ds, rfl, -⟩ := (hcons ds).1 hds
          exact hfit ((le_value hbase ds _).trans hm)

/-- **The reader reads the numerals** of the numbers up to the limit. -/
theorem readFrom_zero_eq_some (hbase : 0 < base) (hlimit : base ≤ limit) {text : List α}
    (hne : text ≠ []) {m : ℕ} :
    readFrom digit base limit 0 text = some m ↔ Writes digit base text m ∧ m ≤ limit := by
  rw [readFrom_eq_some hbase hlimit (Nat.zero_le _), Writes]
  constructor
  · rintro ⟨ds, hds, hlt, hv, hm⟩
    exact ⟨⟨hne, ds, hds, hlt, hv⟩, hm⟩
  · rintro ⟨⟨-, ds, hds, hlt, hv⟩, hm⟩
    exact ⟨ds, hds, hlt, hv, hm⟩

/-- **No number grows past the limit.** -/
theorem assigned_le (hbase : 0 < base) (hlimit : base ≤ limit) {text : List α} {n : ℕ} :
    ∀ v ∈ assigned digit base limit n text, v ≤ limit := by
  induction text generalizing n with
  | nil => exact fun v hv => absurd hv List.not_mem_nil
  | cons c text ih =>
    intro v hv
    unfold assigned at hv
    split at hv
    · exact absurd hv List.not_mem_nil
    next d hd =>
    split at hv
    · exact absurd hv List.not_mem_nil
    next hguard =>
    obtain ⟨hdigit, hfits⟩ := not_or.1 hguard
    rcases List.mem_cons.1 hv with rfl | hv
    · exact (mul_add_le_iff hbase (by omega)).2 hfits
    · exact ih v hv

/-- The run of digits is read like a text of its own. -/
lemma readRun_eq (n : ℕ) (text : List α) :
    readRun digit base limit n text =
      (readFrom digit base limit n (text.takeWhile fun c => (digit c).isSome)).map
        fun m => (m, text.dropWhile fun c => (digit c).isSome) := by
  induction text generalizing n with
  | nil => rfl
  | cons c text ih =>
    cases hd : digit c with
    | none => simp [readRun, readFrom, hd]
    | some d =>
      simp only [readRun, readFrom, hd, Option.isSome_some, List.takeWhile_cons_of_pos,
        List.dropWhile_cons_of_pos]
      split
      · rfl
      · exact ih _

/-- **What `readDigits` reads**: a numeral of a number up to the limit, as long as possible. -/
theorem readDigits_eq_some (hbase : 0 < base) (hlimit : base ≤ limit) {text rest : List α} {n : ℕ} :
    readDigits digit base limit text = some (n, rest) ↔
      ∃ ds, text = ds ++ rest ∧ Writes digit base ds n ∧ n ≤ limit ∧ rest.head?.bind digit = none := by
  have hdigits : ∀ {ds : List α}, Writes digit base ds n → ∀ c ∈ ds, (digit c).isSome = true := by
    rintro ds ⟨-, values, hvalues, -⟩ c hc
    have hmem : digit c ∈ values.map some := hvalues ▸ List.mem_map_of_mem hc
    obtain ⟨d, -, hd⟩ := List.mem_map.1 hmem
    rw [← hd]
    rfl
  unfold readDigits
  rw [readRun_eq]
  constructor
  · intro h
    split at h
    · exact absurd h (Option.some_ne_none _).symm
    next hfirst =>
    obtain ⟨m, hm, heq⟩ := Option.map_eq_some_iff.1 h
    obtain ⟨rfl, rfl⟩ := Prod.mk.inj heq
    have hne : (text.takeWhile fun c => (digit c).isSome) ≠ [] := by
      cases text with
      | nil => exact absurd rfl hfirst
      | cons c text =>
        have hc : (digit c).isSome = true := Option.isSome_iff_ne_none.2 hfirst
        simp [hc]
    obtain ⟨hwrites, hle⟩ := (readFrom_zero_eq_some hbase hlimit hne).1 hm
    refine ⟨_, List.takeWhile_append_dropWhile.symm, hwrites, hle, ?_⟩
    cases hrest : text.dropWhile fun c => (digit c).isSome with
    | nil => rfl
    | cons c rest =>
      have hc := List.head?_dropWhile_not (fun c => (digit c).isSome) text
      rw [hrest] at hc
      simpa using hc
  · rintro ⟨ds, rfl, hwrites, hle, hrest⟩
    have hall := hdigits hwrites
    have htake : ((ds ++ rest).takeWhile fun c => (digit c).isSome) = ds := by
      rw [List.takeWhile_append_of_pos hall]
      cases rest with
      | nil => exact List.append_nil _
      | cons c rest =>
        have hc : digit c = none := hrest
        rw [List.takeWhile_cons_of_neg (by simp [hc]), List.append_nil]
    have hdrop : ((ds ++ rest).dropWhile fun c => (digit c).isSome) = rest := by
      rw [List.dropWhile_append_of_pos hall]
      cases rest with
      | nil => rfl
      | cons c rest =>
        have hc : digit c = none := hrest
        exact List.dropWhile_cons_of_neg (by simp [hc])
    have hfirst : (ds ++ rest).head?.bind digit ≠ none := by
      cases ds with
      | nil => exact absurd rfl hwrites.1
      | cons c ds => exact Option.isSome_iff_ne_none.1 (hall c List.mem_cons_self)
    rw [if_neg hfirst, htake, hdrop,
      (readFrom_zero_eq_some hbase hlimit hwrites.1).2 ⟨hwrites, hle⟩]
    rfl

end Wpm.Lib.Numeral
