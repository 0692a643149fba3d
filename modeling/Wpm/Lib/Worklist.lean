import Mathlib.Order.Basic

/-!
Loops over a table that grows while they go over it.

A turn is at one row, and may add rows at the end. An invariant of the turns is one of the whole
loop, and a bound on the rows is one on the turns.
-/

namespace Wpm.Lib.Worklist

variable {α σ : Type*} (table : σ → List α) (turn : ℕ → α → σ → σ)

/-- The loop from row `i` on: none when it has not ended after `n` turns. -/
def walk : ℕ → ℕ → σ → Option σ
  | 0, i, s => if (table s).length ≤ i then some s else none
  | n + 1, i, s => match (table s)[i]? with
    | none => some s
    | some a => walk n (i + 1) (turn i a s)

/-- The states that the loop comes to, with the row that is next. -/
inductive Reached (start : σ) : ℕ → σ → Prop
  | start : Reached start 0 start
  | turn {i : ℕ} {s : σ} {a : α} : Reached start i s → (table s)[i]? = some a →
      Reached start (i + 1) (turn i a s)

variable {table turn} {start s t : σ} {i n N : ℕ}

/-- The state that the loop ends in is one that it comes to, and has no row to go. -/
lemma Reached.of_walk (h : Reached table turn start i s) (hrun : walk table turn n i s = some t) :
    ∃ j, Reached table turn start j t ∧ (table t).length ≤ j := by
  induction n generalizing i s with
  | zero =>
    rw [walk, ite_eq_iff] at hrun
    obtain ⟨hle, hst⟩ | ⟨-, hnone⟩ := hrun
    · obtain rfl := Option.some.inj hst
      exact ⟨i, h, hle⟩
    · exact absurd hnone (Option.some_ne_none t).symm
  | succ n ih =>
    rw [walk] at hrun
    cases ha : (table s)[i]? with
    | none =>
      rw [ha] at hrun
      obtain rfl := Option.some.inj hrun
      exact ⟨i, h, List.getElem?_eq_none_iff.1 ha⟩
    | some a =>
      rw [ha] at hrun
      exact ih (h.turn ha) hrun

/-- **The loop ends**, when it comes to no state with more than `N` rows. -/
lemma Reached.exists_walk (h : Reached table turn start i s) (hn : N ≤ i + n)
    (hN : ∀ j t, Reached table turn start j t → (table t).length ≤ N) :
    ∃ t, walk table turn n i s = some t := by
  induction n generalizing i s with
  | zero =>
    have hle : (table s).length ≤ i := by
      have := hN i s h
      omega
    exact ⟨s, by rw [walk, if_pos hle]⟩
  | succ n ih =>
    rw [walk]
    cases ha : (table s)[i]? with
    | none => exact ⟨s, rfl⟩
    | some a => exact ih (h.turn ha) (by omega)

end Wpm.Lib.Worklist
