import Mathlib.Data.List.Induction
import Mathlib.Data.List.Perm.Basic
import Mathlib.Order.Basic

/-!
The best element of a list, by one pass that holds the best one so far.

The element held is replaced by a strictly better one only, so what remains is the first of the best
elements. It is the same in any order of the list that keeps the order among elements of equal
rank.
-/

namespace Wpm.Lib.Best

variable {α : Type} (cmp : α → α → Ordering)

/-- What is held after the next element. -/
def step (held : Option α) (x : α) : Option α :=
  match held with
  | none => some x
  | some y => if cmp x y = .gt then some x else some y

/-- `s` stands in the list, everything before it is lower and nothing after it is higher. -/
def First (l : List α) (s : α) : Prop :=
  ∃ before after, l = before ++ s :: after ∧ (∀ x ∈ before, cmp x s = .lt) ∧
    ∀ x ∈ after, cmp x s ≠ .gt

variable {cmp} {l l' : List α} {s : α}

lemma First.mem (h : First cmp l s) : s ∈ l := by
  obtain ⟨before, after, rfl, -⟩ := h
  exact List.mem_append_right _ List.mem_cons_self

lemma First.ne_gt [Std.ReflCmp cmp] (h : First cmp l s) {x : α} (hx : x ∈ l) : cmp x s ≠ .gt := by
  obtain ⟨before, after, rfl, hbefore, hafter⟩ := h
  rcases List.mem_append.1 hx with hx | hx
  · rw [hbefore x hx]
    decide
  · rcases List.mem_cons.1 hx with rfl | hx
    · rw [@Std.ReflCmp.compare_self _ cmp]
      decide
    · exact hafter x hx

/-- The first one is at the head of the elements of its rank. -/
lemma First.filter_eq [Std.ReflCmp cmp] (h : First cmp l s) :
    ∃ after, l.filter (fun x => cmp x s = .eq) = s :: after := by
  obtain ⟨before, after, rfl, hbefore, -⟩ := h
  have hnil : before.filter (fun x => cmp x s = .eq) = [] :=
    List.filter_eq_nil_iff.2 fun x hx => by simp [hbefore x hx]
  refine ⟨after.filter fun x => cmp x s = .eq, ?_⟩
  rw [List.filter_append, hnil, List.nil_append, List.filter_cons_of_pos]
  exact decide_eq_true Std.ReflCmp.compare_self

/-- **The run lemma**: the pass ends with the first of the best elements. -/
theorem foldl_step [Std.TransCmp cmp] (l : List α) :
    (l.foldl (step cmp) none = none ↔ l = []) ∧
      ∀ s, l.foldl (step cmp) none = some s → First cmp l s := by
  induction l using List.reverseRecOn with
  | nil => exact ⟨by simp, fun s h => absurd h (by simp)⟩
  | append_singleton l x ih =>
    rw [List.foldl_append, List.foldl_cons, List.foldl_nil]
    cases hheld : l.foldl (step cmp) none with
    | none =>
      obtain rfl := ih.1.1 hheld
      refine ⟨by simp [step], fun s h => ?_⟩
      obtain rfl := Option.some.inj h
      exact ⟨[], [], rfl, by simp, by simp⟩
    | some y =>
      obtain hy := ih.2 y hheld
      have hstep : step cmp (some y) x = if cmp x y = .gt then some x else some y := rfl
      refine ⟨by rw [hstep]; split <;> simp, fun s h => ?_⟩
      rw [hstep] at h
      by_cases hgt : cmp x y = .gt
      · rw [if_pos hgt] at h
        obtain rfl := Option.some.inj h
        refine ⟨l, [], rfl, fun z hz => ?_, by simp⟩
        have hzy : (cmp z y).isLE := Ordering.isLE_iff_ne_gt.2 (hy.ne_gt hz)
        exact Std.TransCmp.lt_of_isLE_of_lt hzy (Std.OrientedCmp.gt_iff_lt.1 hgt)
      · rw [if_neg hgt] at h
        obtain rfl := Option.some.inj h
        obtain ⟨before, after, rfl, hbefore, hafter⟩ := hy
        refine ⟨before, after ++ [x], by simp, hbefore, fun z hz => ?_⟩
        rcases List.mem_append.1 hz with hz | hz
        · exact hafter z hz
        · obtain rfl := List.mem_singleton.1 hz
          exact hgt

/-- **The order of the list does not matter**, except among elements of equal rank. -/
theorem foldl_step_perm [Std.TransCmp cmp] (hperm : l'.Perm l)
    (hties : ∀ s, l'.filter (fun x => cmp x s = .eq) = l.filter fun x => cmp x s = .eq) :
    l'.foldl (step cmp) none = l.foldl (step cmp) none := by
  cases h : l.foldl (step cmp) none with
  | none =>
    obtain rfl := (foldl_step l).1.1 h
    rw [hperm.eq_nil]
    rfl
  | some s =>
    have hs := (foldl_step l).2 s h
    cases h' : l'.foldl (step cmp) none with
    | none =>
      obtain rfl := (foldl_step l').1.1 h'
      exact absurd (hperm.mem_iff.2 hs.mem) List.not_mem_nil
    | some s' =>
      have hs' := (foldl_step l').2 s' h'
      have hle : (cmp s s').isLE := Ordering.isLE_iff_ne_gt.2 (hs'.ne_gt (hperm.mem_iff.2 hs.mem))
      have hge : (cmp s' s).isLE := Ordering.isLE_iff_ne_gt.2 (hs.ne_gt (hperm.mem_iff.1 hs'.mem))
      have heq : cmp s' s = .eq := Std.OrientedCmp.isLE_antisymm hge hle
      obtain ⟨after, ha⟩ := hs.filter_eq
      obtain ⟨after', ha'⟩ := hs'.filter_eq
      have hsame : ∀ x, (cmp x s' = .eq) = (cmp x s = .eq) := fun x => by
        rw [Std.TransCmp.congr_right heq]
      simp only [hsame, hties] at ha'
      rw [ha] at ha'
      rw [(List.cons.inj ha').1]

end Wpm.Lib.Best
