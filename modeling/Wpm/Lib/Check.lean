import Mathlib.Data.Option.Basic
import Mathlib.Tactic.Common

/-!
Checks that stop at the first failure.

A check is a computation in `Except`: it answers, or it stops with what it reports. `require` is
the single test, and the lemmas take a check that answered apart into the tests it passed.
-/

namespace Wpm.Lib.Check

universe u v

variable {ε : Type u} {α β : Type v}

/-- Go on if `p` holds, and stop with `e` otherwise. -/
def require (p : Prop) [Decidable p] (e : ε) : Except ε Unit := if p then .ok () else .error e

@[simp] lemma require_eq_ok {p : Prop} [Decidable p] {e : ε} {u : Unit} :
    require p e = .ok u ↔ p := by
  unfold require
  split <;> simp_all

@[simp] lemma bind_eq_ok {x : Except ε α} {f : α → Except ε β} {b : β} :
    (x >>= f) = .ok b ↔ ∃ a, x = .ok a ∧ f a = .ok b := by
  cases x <;> simp [bind, Except.bind]

lemma then_eq_ok {α : Type} {x : Except ε Unit} {y : Except ε α} {a : α} :
    (do x; y) = .ok a ↔ x = .ok () ∧ y = .ok a := by
  cases x <;> simp [bind, Except.bind]

@[simp] lemma pure_eq_ok {a b : α} : (pure a : Except ε α) = .ok b ↔ a = b := by
  simp [pure, Except.pure]

/-- The value of an `Option`, or the failure `e`. -/
def orElse (o : Option α) (e : ε) : Except ε α := o.elim (.error e) .ok

@[simp] lemma orElse_eq_ok {o : Option α} {e : ε} {a : α} : orElse o e = .ok a ↔ o = some a := by
  cases o <;> simp [orElse]

lemma option_bind_eq_some {α : Type u} {β : Type u} {x : Option α} {f : α → Option β} {b : β} :
    (x >>= f) = some b ↔ ∃ a, x = some a ∧ f a = some b := Option.bind_eq_some_iff

end Wpm.Lib.Check
