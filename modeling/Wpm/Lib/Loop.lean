import Mathlib.Control.Basic
import Mathlib.Tactic.Common

/-!
Loops, with the number of turns that they may take.

A turn gives the answer of the loop or the state that the next turn begins with. The rule for such
a loop (`loop_spec`) asks for an invariant and for a number that falls with each turn.

`OptionT Option` is the type of procedures that may fail and may not return; `Returns` says that one
returns, and what holds when it has not failed.
-/

namespace Wpm.Lib.Loop

variable {σ ρ : Type*}

/-- The answer of a loop that may take `n` turns; `none` when it takes more. -/
def loop (turn : σ → ρ ⊕ σ) : ℕ → σ → Option ρ
  | 0, _ => none
  | n + 1, s => match turn s with
    | .inl r => some r
    | .inr s => loop turn n s

variable {turn : σ → ρ ⊕ σ}

lemma loop_of_inl {s : σ} {r : ρ} (h : turn s = .inl r) (n : ℕ) :
    loop turn (n + 1) s = some r := by
  rw [loop, h]

lemma loop_of_inr {s s' : σ} (h : turn s = .inr s') (n : ℕ) :
    loop turn (n + 1) s = loop turn n s' := by
  rw [loop, h]

/-- **The rule for a loop**: with an invariant that each turn keeps, and a number below the turns
allowed that each turn lowers, the loop comes to an answer. -/
theorem loop_spec {I : σ → Prop} {Q : ρ → Prop} {m : σ → ℕ}
    (hdone : ∀ s r, I s → turn s = .inl r → Q r)
    (hturn : ∀ s s', I s → turn s = .inr s' → I s' ∧ m s' < m s) {n : ℕ} {s : σ} (hs : I s)
    (hn : m s < n) : ∃ r, loop turn n s = some r ∧ Q r := by
  induction n generalizing s with
  | zero => exact absurd hn (Nat.not_lt_zero _)
  | succ n ih =>
    cases h : turn s with
    | inl r => exact ⟨r, loop_of_inl h n, hdone s r hs h⟩
    | inr s' =>
      obtain ⟨hs', hm⟩ := hturn s s' hs h
      rw [loop_of_inr h]
      exact ih hs' (by omega)

/-! ### Procedures that return -/

section Returns

variable {α β : Type} {Q : α → Prop} {R : β → Prop}

/-- The procedure returns, with an answer of which `Q` holds if it has one. -/
def Returns (Q : α → Prop) (x : OptionT Option α) : Prop := ∃ r, x.run = some r ∧ ∀ a ∈ r, Q a

lemma returns_pure {a : α} (h : Q a) : Returns Q (pure a) := by
  refine ⟨some a, rfl, fun b hb => ?_⟩
  obtain rfl := Option.some.inj hb
  exact h

lemma returns_failure : Returns Q failure := ⟨none, rfl, fun _ h => absurd h (by simp)⟩

lemma Returns.bind {x : OptionT Option α} {f : α → OptionT Option β} (hx : Returns Q x)
    (hf : ∀ a, Q a → Returns R (f a)) : Returns R (x >>= f) := by
  obtain ⟨r, hr, hQ⟩ := hx
  cases r with
  | none => exact ⟨none, by rw [OptionT.run_bind, hr]; rfl, fun _ h => absurd h (by simp)⟩
  | some a =>
    obtain ⟨r, hr', hR⟩ := hf a (hQ a rfl)
    exact ⟨r, by rw [OptionT.run_bind, hr]; exact hr', hR⟩

lemma run_bind_of_some {x : OptionT Option α} {f : α → OptionT Option β} {a : α}
    (h : x.run = some (some a)) : (x >>= f).run = (f a).run := by
  rw [OptionT.run_bind, h]
  rfl

lemma run_mk_bind {o : Option (Option α)} {f : α → OptionT Option β} {a : α}
    (h : o = some (some a)) : (OptionT.mk o >>= f).run = (f a).run := run_bind_of_some h

lemma returns_ofOption {o : Option α} (h : ∀ a ∈ o, Q a) : Returns Q (OptionT.mk (some o)) :=
  ⟨o, rfl, h⟩

end Returns

end Wpm.Lib.Loop
