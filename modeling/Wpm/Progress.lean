import Mathlib.Algebra.Order.Ring.Nat
import Wpm.Lib.CString

/-!
The progress of a long operation, and the percentage that it shows.

Sizes are numbers of 64 bits, a percentage is one of 32. `progress_render` multiplies before it
divides, so the product may be too large; and the quotient may be too large for its type.
-/

namespace Wpm.Progress

open Wpm.Lib.CString (forall_mem_of_all)

/-- `wpm_progress`, as far as numbers go. -/
structure WpmProgress where
  current : UInt64
  total : UInt64
  lastUpdateMs : UInt32
  interactive : Bool
  started : Bool

/-- What a line shows of the progress; there is a percentage when the total is known. -/
structure Line where
  percent : Option UInt32
  current : UInt64
  total : UInt64
  deriving DecidableEq, Repr

/-- `WPM_PROGRESS_INTERACTIVE_INTERVAL_MS` and `WPM_PROGRESS_SCRIPT_INTERVAL_MS`. -/
def updateInterval (interactive : Bool) : UInt32 := if interactive then 100 else 2000

/-- The percentage in `progress_render`. -/
def percentOf (current total : UInt64) : UInt32 :=
  if 100 < (current * 100 / total).toUInt32 then 100 else (current * 100 / total).toUInt32

/-- `progress_render`: the progress, and the line if one is written. -/
def progressRender (progress : WpmProgress) (now : UInt32) (force : Bool) :
    WpmProgress × Option Line :=
  if progress.started = false then (progress, none)
  else if force = false ∧ now - progress.lastUpdateMs < updateInterval progress.interactive then
    (progress, none)
  else ({ progress with lastUpdateMs := now },
    some ⟨if progress.total = 0 then none else some (percentOf progress.current progress.total),
      progress.current, progress.total⟩)

/-- `wpm_progress_start`. -/
def wpmProgressStart (total : UInt64) (interactive : Bool) (now : UInt32) :
    WpmProgress × Option Line :=
  progressRender ⟨0, total, now, interactive, true⟩ now true

/-- The sum in `wpm_progress_add`, which stops at the largest number. -/
def addBytes (current bytes : UInt64) : UInt64 :=
  if 0xFFFFFFFFFFFFFFFF - current < bytes then 0xFFFFFFFFFFFFFFFF else current + bytes

/-- `wpm_progress_add`. -/
def wpmProgressAdd (progress : WpmProgress) (bytes : UInt64) (now : UInt32) :
    WpmProgress × Option Line :=
  if progress.started = false then (progress, none)
  else progressRender { progress with current := addBytes progress.current bytes } now false

/-- A sequence of calls of `wpm_progress_add`, each with the time: the lines that are written. -/
def addLines : WpmProgress → List (UInt64 × UInt32) → List Line
  | _, [] => []
  | progress, (bytes, now) :: adds =>
    (wpmProgressAdd progress bytes now).2.toList ++
      addLines (wpmProgressAdd progress bytes now).1 adds

/-- The sizes that the sequence comes to. -/
def addCurrents : UInt64 → List (UInt64 × UInt32) → List UInt64
  | current, [] => [current]
  | current, (bytes, _) :: adds => current :: addCurrents (addBytes current bytes) adds

/-! ### The percentage -/

/-- The percentage as it is meant. -/
def exactPercent (current total : ℕ) : ℕ := min 100 (100 * current / total)

/-- The product fits its type, and so does the quotient. -/
def Fits (current total : ℕ) : Prop := 100 * current < 2 ^ 64 ∧ 100 * current < 2 ^ 32 * total

instance (current total : ℕ) : Decidable (Fits current total) :=
  inferInstanceAs (Decidable (_ ∧ _))

lemma percentOf_toNat (current total : UInt64) : (percentOf current total).toNat =
    min 100 (100 * current.toNat % 2 ^ 64 / total.toNat % 2 ^ 32) := by
  have hquot : (current * 100 / total).toUInt32.toNat =
      100 * current.toNat % 2 ^ 64 / total.toNat % 2 ^ 32 := by
    rw [UInt64.toNat_toUInt32, UInt64.toNat_div, UInt64.toNat_mul, Nat.mul_comm]
    rfl
  unfold percentOf
  split
  · next h =>
    rw [UInt32.lt_iff_toNat_lt, hquot] at h
    exact (Nat.min_eq_left (Nat.le_of_lt h)).symm
  · next h =>
    rw [UInt32.lt_iff_toNat_lt, hquot] at h
    rw [hquot]
    exact (Nat.min_eq_right (Nat.le_of_not_lt h)).symm

/-- **The percentage is exact where nothing is lost.** -/
lemma Fits.percentOf_eq {current total : UInt64} (h : Fits current.toNat total.toNat) :
    (percentOf current total).toNat = exactPercent current.toNat total.toNat := by
  have hquot : 100 * current.toNat / total.toNat < 2 ^ 32 :=
    Nat.div_lt_of_lt_mul (Nat.mul_comm (2 ^ 32) total.toNat ▸ h.2)
  rw [percentOf_toNat, exactPercent, Nat.mod_eq_of_lt h.1, Nat.mod_eq_of_lt hquot]

/-- **Below the total it is exact if and only if the product fits.** -/
lemma percentOf_eq_iff {current total : UInt64} (hct : current < total) :
    (percentOf current total).toNat = exactPercent current.toNat total.toNat ↔
      100 * current.toNat < 2 ^ 64 := by
  rw [UInt64.lt_iff_toNat_lt] at hct
  have hlt := total.toNat_lt
  rw [percentOf_toNat, exactPercent]
  generalize current.toNat = c at hct
  generalize total.toNat = t at hct hlt ⊢
  have hpos : 0 < t := Nat.zero_lt_of_lt hct
  have hq : 100 * c / t < 100 := Nat.div_lt_of_lt_mul (by omega)
  constructor
  · intro h
    by_contra hlarge
    -- what is lost is more than the total, and so at least one percent
    have hdiv := Nat.div_add_mod (100 * c) (2 ^ 64)
    have hone : 1 ≤ 100 * c / 2 ^ 64 := (Nat.one_le_div_iff (by decide)).2 (by omega)
    have hlost : 100 * c % 2 ^ 64 + t ≤ 100 * c := by omega
    have hless : 100 * c % 2 ^ 64 / t + 1 ≤ 100 * c / t := by
      rw [← Nat.add_div_right _ hpos]
      exact Nat.div_le_div_right hlost
    have hmod := Nat.mod_le (100 * c % 2 ^ 64 / t) (2 ^ 32)
    omega
  · intro hfits
    rw [Nat.mod_eq_of_lt hfits, Nat.mod_eq_of_lt (by omega)]

lemma exactPercent_mono {c c' : ℕ} (h : c ≤ c') (t : ℕ) : exactPercent c t ≤ exactPercent c' t := by
  have hdiv : 100 * c / t ≤ 100 * c' / t := Nat.div_le_div_right (Nat.mul_le_mul_left 100 h)
  unfold exactPercent
  omega

/-! ### Sequences of calls -/

lemma le_addBytes (current bytes : UInt64) : current.toNat ≤ (addBytes current bytes).toNat := by
  have hlt := current.toNat_lt
  have hmax : (0xFFFFFFFFFFFFFFFF : UInt64).toNat = 2 ^ 64 - 1 := by decide
  unfold addBytes
  split
  · omega
  · next h =>
    have hle : current ≤ 0xFFFFFFFFFFFFFFFF := by
      rw [UInt64.le_iff_toNat_le, hmax]
      omega
    rw [UInt64.lt_iff_toNat_lt, UInt64.toNat_sub_of_le _ _ hle, hmax] at h
    rw [UInt64.toNat_add, Nat.mod_eq_of_lt (by omega)]
    omega

lemma le_of_mem_addCurrents {current c : UInt64} {adds : List (UInt64 × UInt32)}
    (h : c ∈ addCurrents current adds) : current.toNat ≤ c.toNat := by
  induction adds generalizing current with
  | nil =>
    rw [List.mem_singleton.1 h]
  | cons add adds ih =>
    rcases List.mem_cons.1 h with rfl | h
    · exact Nat.le_refl _
    · exact (le_addBytes current add.1).trans (ih h)

/-- **Exact percentages do not fall.** -/
lemma percents_pairwise {current total : UInt64} {adds : List (UInt64 × UInt32)}
    (hfits : ∀ c ∈ addCurrents current adds, Fits c.toNat total.toNat) :
    ((addCurrents current adds).map (percentOf · total)).Pairwise (· ≤ ·) := by
  induction adds generalizing current with
  | nil => exact List.pairwise_singleton _ _
  | cons add adds ih =>
    have hrest : ∀ c ∈ addCurrents (addBytes current add.1) adds, Fits c.toNat total.toNat :=
      fun c hc => hfits c (List.mem_cons_of_mem _ hc)
    refine List.pairwise_cons.2 ⟨?_, ih hrest⟩
    intro percent hpercent
    obtain ⟨c, hc, rfl⟩ := List.mem_map.1 hpercent
    have hle := (le_addBytes current add.1).trans (le_of_mem_addCurrents hc)
    rw [UInt32.le_iff_toNat_le, (hfits current List.mem_cons_self).percentOf_eq,
      (hrest c hc).percentOf_eq]
    exact exactPercent_mono hle _

/-- What a call of `progress_render` shows is the percentage that it computes. -/
lemma progressRender_percent {progress : WpmProgress} {now : UInt32} {force : Bool}
    (htotal : progress.total ≠ 0) :
    ((progressRender progress now force).2.toList.filterMap Line.percent).Sublist
      [percentOf progress.current progress.total] ∧
    (progressRender progress now force).1.current = progress.current ∧
    (progressRender progress now force).1.total = progress.total := by
  unfold progressRender
  split
  · exact ⟨List.nil_sublist _, rfl, rfl⟩
  · split
    · exact ⟨List.nil_sublist _, rfl, rfl⟩
    · exact ⟨List.Sublist.refl _, rfl, rfl⟩

lemma addCurrents_eq_cons (current : UInt64) (adds : List (UInt64 × UInt32)) :
    addCurrents current adds = current :: (addCurrents current adds).tail := by
  cases adds <;> rfl

/-- Without a start nothing is shown. -/
lemma addLines_of_not_started {progress : WpmProgress} {adds : List (UInt64 × UInt32)}
    (h : progress.started = false) : addLines progress adds = [] := by
  induction adds with
  | nil => rfl
  | cons add adds ih =>
    have hadd : wpmProgressAdd progress add.1 add.2 = (progress, none) := if_pos h
    rw [addLines, hadd, ih]
    rfl

/-- The lines show some of the percentages that the sequence comes to, in their order. -/
lemma addLines_sublist {progress : WpmProgress} {adds : List (UInt64 × UInt32)}
    (htotal : progress.total ≠ 0) :
    ((addLines progress adds).filterMap Line.percent).Sublist
      ((addCurrents progress.current adds).tail.map (percentOf · progress.total)) := by
  induction adds generalizing progress with
  | nil => exact List.nil_sublist _
  | cons add adds ih =>
    obtain ⟨bytes, now⟩ := add
    by_cases hstarted : progress.started = false
    · rw [addLines_of_not_started hstarted]
      exact List.nil_sublist _
    · have hadd : wpmProgressAdd progress bytes now = progressRender
          { progress with current := addBytes progress.current bytes } now false := if_neg hstarted
      obtain ⟨hline, hcurrent, htotal'⟩ := @progressRender_percent
        { progress with current := addBytes progress.current bytes } now false htotal
      rw [← hadd] at hline hcurrent htotal'
      have hrest := @ih (wpmProgressAdd progress bytes now).1 (htotal'.symm ▸ htotal)
      rw [hcurrent, htotal'] at hrest
      rw [addLines, addCurrents, List.filterMap_append, List.tail_cons, addCurrents_eq_cons,
        List.map_cons]
      exact hline.append hrest

/-- **The percentage is exact where nothing is lost**, and below the total there only; and in a
sequence of calls of `wpm_progress_add` in which nothing is lost, the percentages that are computed,
and those that are shown, do not fall. -/
theorem progress_percent (progress : WpmProgress) (adds : List (UInt64 × UInt32))
    (htotal : progress.total ≠ 0) :
    (∀ current < progress.total, (percentOf current progress.total).toNat =
        exactPercent current.toNat progress.total.toNat ↔ 100 * current.toNat < 2 ^ 64) ∧
    (∀ current : UInt64, Fits current.toNat progress.total.toNat →
      (percentOf current progress.total).toNat =
        exactPercent current.toNat progress.total.toNat) ∧
    ((∀ c ∈ addCurrents progress.current adds, Fits c.toNat progress.total.toNat) →
      ((addCurrents progress.current adds).map (percentOf · progress.total)).Pairwise (· ≤ ·) ∧
      ((addLines progress adds).filterMap Line.percent).Pairwise (· ≤ ·)) := by
  refine ⟨fun _ => percentOf_eq_iff, fun _ => Fits.percentOf_eq, fun hfits => ?_⟩
  have hall := percents_pairwise hfits
  refine ⟨hall, hall.sublist ((addLines_sublist htotal).trans ?_)⟩
  exact (List.tail_sublist _).map _

/-- A file of a thousand bytes, in three parts and one that is too much. -/
def sampleAdds : List (UInt64 × UInt32) :=
  [(250, 2000), (250, 4000), (500, 6000), (0x10000000, 8000)]

theorem progress_percent_sample :
    (percentOf 250 1000).toNat = exactPercent 250 1000 ∧
      (percentOf 1500 1000).toNat = exactPercent 1500 1000 ∧
      ((addLines (wpmProgressStart 1000 false 0).1 sampleAdds).filterMap Line.percent).Pairwise
        (· ≤ ·) := by
  have hpercent := progress_percent (wpmProgressStart 1000 false 0).1 sampleAdds (by decide)
  exact ⟨(hpercent.1 250 (by decide)).2 (by decide), hpercent.2.1 1500 (by decide),
    (hpercent.2.2 (forall_mem_of_all (by decide))).2⟩

/-- **The percentage falls** in the middle of an operation, and is zero at its end. -/
theorem percent_falls :
    ((addLines (wpmProgressStart 0x1000000000000000 false 0).1
      [(0x0200000000000000, 2000), (0x0200000000000000, 4000)]).filterMap Line.percent) = [12, 9] ∧
    (percentOf 0x8000000000000000 0x8000000000000000).toNat = 0 ∧
    exactPercent (2 ^ 63) (2 ^ 63) = 100 ∧ (percentOf 0x40000000 1).toNat = 0 ∧
    exactPercent (2 ^ 30) 1 = 100 := by
  decide

end Wpm.Progress
