import Mathlib.Data.List.Basic

/-!
Machines that read a text character by character and put something out for each.

What such a machine puts out does not depend on how the text is cut into pieces (`runPieces_eq`), and
a machine that another one follows step by step puts out what the other one does, up to a view of it
(`run_follows`).
-/

namespace Wpm.Lib.Transducer

variable {σ τ α β γ : Type*}

/-- The state after a text, and what was put out for it. -/
def run (step : σ → α → σ × List β) : σ → List α → σ × List β
  | s, [] => (s, [])
  | s, a :: text =>
    let next := step s a
    let rest := run step next.1 text
    (rest.1, next.2 ++ rest.2)

/-- One piece of a text after the other. -/
def runPieces (step : σ → α → σ × List β) : σ → List (List α) → σ × List β
  | s, [] => (s, [])
  | s, piece :: pieces =>
    let next := run step s piece
    let rest := runPieces step next.1 pieces
    (rest.1, next.2 ++ rest.2)

variable {step : σ → α → σ × List β}

lemma run_cons (s : σ) (a : α) (text : List α) : run step s (a :: text) =
    ((run step (step s a).1 text).1, (step s a).2 ++ (run step (step s a).1 text).2) := rfl

lemma run_append (s : σ) (text text' : List α) : run step s (text ++ text') =
    ((run step (run step s text).1 text').1,
      (run step s text).2 ++ (run step (run step s text).1 text').2) := by
  induction text generalizing s with
  | nil => rfl
  | cons a text ih => rw [List.cons_append, run_cons, ih, run_cons, List.append_assoc]

/-- **Pieces make no difference.** -/
theorem runPieces_eq (s : σ) (pieces : List (List α)) :
    runPieces step s pieces = run step s pieces.flatten := by
  induction pieces generalizing s with
  | nil => rfl
  | cons piece pieces ih => rw [runPieces, ih, List.flatten_cons, run_append]

/-- What holds of everything that a step puts out holds of everything that is put out. -/
lemma forall_mem_run {p : β → Prop} (h : ∀ s a, ∀ b ∈ (step s a).2, p b) (s : σ) (text : List α) :
    ∀ b ∈ (run step s text).2, p b := by
  induction text generalizing s with
  | nil => exact fun b hb => absurd hb List.not_mem_nil
  | cons a text ih =>
    intro b hb
    rcases List.mem_append.1 hb with hb | hb
    · exact h s a b hb
    · exact ih _ b hb

/-- **A machine that follows another one** step by step puts out what the other one does, as far as
it is seen. -/
theorem run_follows {step' : τ → α → τ × List γ} {r : σ → τ → Prop} {view : List γ → List β}
    (hnil : view [] = []) (happend : ∀ x y, view (x ++ y) = view x ++ view y)
    (h : ∀ s t a, r s t → r (step s a).1 (step' t a).1 ∧ (step s a).2 = view (step' t a).2)
    {s : σ} {t : τ} (hr : r s t) (text : List α) :
    (run step s text).2 = view (run step' t text).2 := by
  induction text generalizing s t with
  | nil => exact hnil.symm
  | cons a text ih =>
    obtain ⟨hnext, hout⟩ := h s t a hr
    rw [run_cons, run_cons, happend, ← hout, ih hnext]

end Wpm.Lib.Transducer
