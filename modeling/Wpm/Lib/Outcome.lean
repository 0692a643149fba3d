import Mathlib.Control.Monad.Basic
import Mathlib.Tactic.Common

/-!
Computations with a state that may fail, and what they come to.

`Reaches f s Q` says that `f` gives an answer from the state `s`, and that `Q` holds of the answer
and of the state then. The rules are equivalences, so that nothing is lost when a computation is taken
apart: what is left in the end is exactly the condition under which it succeeds.
-/

namespace Wpm.Lib.Outcome

variable {ε σ α β : Type}

/-- The computation succeeds, and `Q` holds of its answer and of the state after it. -/
def Reaches (f : ExceptT ε (StateM σ) α) (s : σ) (Q : α → σ → Prop) : Prop :=
  ∃ a s', f.run.run s = (.ok a, s') ∧ Q a s'

variable {s : σ} {Q : α → σ → Prop}

lemma reaches_iff_of_run {f : ExceptT ε (StateM σ) α} {a : α} {s' : σ}
    (h : f.run.run s = (.ok a, s')) : Reaches f s Q ↔ Q a s' := by
  constructor
  · rintro ⟨b, t, hrun, hq⟩
    obtain ⟨hb, rfl⟩ := Prod.mk.inj (h.symm.trans hrun)
    exact Except.ok.inj hb ▸ hq
  · exact fun hq => ⟨a, s', h, hq⟩

lemma not_reaches_of_run {f : ExceptT ε (StateM σ) α} {e : ε} {s' : σ}
    (h : f.run.run s = (.error e, s')) : ¬Reaches f s Q := by
  rintro ⟨b, t, hrun, -⟩
  exact nomatch (Prod.mk.inj (h.symm.trans hrun)).1

@[simp] lemma reaches_pure {a : α} :
    Reaches (pure a : ExceptT ε (StateM σ) α) s Q ↔ Q a s := reaches_iff_of_run rfl

@[simp] lemma reaches_get {Q : σ → σ → Prop} :
    Reaches (get : ExceptT ε (StateM σ) σ) s Q ↔ Q s s := reaches_iff_of_run rfl

@[simp] lemma reaches_modify {f : σ → σ} {Q : Unit → σ → Prop} :
    Reaches (modify f : ExceptT ε (StateM σ) Unit) s Q ↔ Q () (f s) := reaches_iff_of_run rfl

/-- One computation after the other. -/
@[simp] lemma reaches_bind {f : ExceptT ε (StateM σ) β} {g : β → ExceptT ε (StateM σ) α} :
    Reaches (f >>= g) s Q ↔ Reaches f s fun b t => Reaches (g b) t Q := by
  have hrun : (f >>= g).run.run s = match f.run.run s with
      | (.ok b, t) => (g b).run.run t
      | (.error e, t) => (.error e, t) := by
    rw [ExceptT.run_bind, StateT.run_bind]
    cases hf : f.run.run s with
    | mk r t => cases r <;> rfl
  cases hf : f.run.run s with
  | mk r t =>
    rw [hf] at hrun
    cases r with
    | error e => exact iff_of_false (not_reaches_of_run hrun) (not_reaches_of_run hf)
    | ok b =>
      rw [reaches_iff_of_run hf]
      constructor
      · rintro ⟨a, u, hbind, hq⟩
        exact ⟨a, u, hrun.symm.trans hbind, hq⟩
      · rintro ⟨a, u, hg, hq⟩
        exact ⟨a, u, hrun.trans hg, hq⟩

end Wpm.Lib.Outcome
