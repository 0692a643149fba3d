import Mathlib.Logic.Function.Basic

/-!
Agents that work in one critical section.

Each agent has a state of its own, and all of them share one thing. An action of an agent changes its
own state and what is shared, and it may be an event of the history. One agent at most has the lock.

What an agent knows of what is shared stays true while it has the lock, if an agent without the lock
changes nothing that matters to the others. `Guarded` says so of one action, by what the agent that
acts does for itself and what it does to another one, and `Run.invariant` says so of a whole run, in
which any agent may act at any time.
-/

namespace Wpm.Lib.Critical

variable {ι Own Shared Action Event : Type*}

structure System (ι Own Shared : Type*) where
  own : ι → Own
  shared : Shared

section

variable [DecidableEq ι] (step : ι → Own → Shared → Action → Option (Own × Shared × List Event))

/-- The systems that are reached from `s₀`, with the history. -/
inductive Run (s₀ : System ι Own Shared) : List Event → System ι Own Shared → Prop
  | init : Run s₀ [] s₀
  | act {log : List Event} {s : System ι Own Shared} {i : ι} {a : Action} {own : Own}
      {shared : Shared} {events : List Event} : Run s₀ log s →
      step i (s.own i) s.shared a = some (own, shared, events) →
      Run s₀ (log ++ events) ⟨Function.update s.own i own, shared⟩

variable {step}

lemma Run.trans {s₀ s s' : System ι Own Shared} {log log' : List Event} (h : Run step s₀ log s)
    (h' : Run step s log' s') : Run step s₀ (log ++ log') s' := by
  induction h' with
  | init => rwa [List.append_nil]
  | act _ hstep ih =>
    rw [← List.append_assoc]
    exact ih.act hstep

variable (step)

/-- The agents act as they are told, where such an action can come next. -/
def System.follow (s : System ι Own Shared) : List (ι × Action) → List Event × System ι Own Shared
  | [] => ([], s)
  | (i, a) :: orders =>
    match step i (s.own i) s.shared a with
    | none => s.follow orders
    | some (own, shared, events) =>
      let r := System.follow ⟨Function.update s.own i own, shared⟩ orders
      (events ++ r.1, r.2)

lemma run_follow (s : System ι Own Shared) (orders : List (ι × Action)) :
    Run step s (s.follow step orders).1 (s.follow step orders).2 := by
  induction orders generalizing s with
  | nil => exact .init
  | cons order orders ih =>
    obtain ⟨i, a⟩ := order
    rw [System.follow]
    cases hstep : step i (s.own i) s.shared a with
    | none => exact ih s
    | some r =>
      obtain ⟨own, shared, events⟩ := r
      exact (Run.init.act hstep).trans (ih _)

end

variable (step : ι → Own → Shared → Action → Option (Own × Shared × List Event))

/-- What is to be kept: who has the lock, when an agent takes itself to have it, what is true of what
is shared, and what an agent knows of it. -/
structure Knowledge (ι Own Shared Event : Type*) where
  holder : Shared → Option ι
  inside : Own → Prop
  holds : List Event → Shared → Prop
  knows : ι → Own → List Event → Shared → Prop

variable {k : Knowledge ι Own Shared Event}

/-- What is known of one agent. -/
structure Knowledge.At (k : Knowledge ι Own Shared Event) (i : ι) (own : Own) (log : List Event)
    (shared : Shared) : Prop where
  inside_iff : k.inside own ↔ k.holder shared = some i
  knows : k.knows i own log shared

/-- **Each action is guarded**: it keeps what is true and what the agent itself knows, and what each
other agent knows. -/
structure Guarded (k : Knowledge ι Own Shared Event) : Prop where
  self : ∀ {i own shared a own' shared' events log}, k.holds log shared → k.At i own log shared →
    step i own shared a = some (own', shared', events) →
      k.holds (log ++ events) shared' ∧ k.At i own' (log ++ events) shared'
  other : ∀ {i own shared a own' shared' events log j other}, j ≠ i → k.holds log shared →
    k.At i own log shared → step i own shared a = some (own', shared', events) →
      k.At j other log shared → k.At j other (log ++ events) shared'

/-- What is true of a system. -/
structure Knowledge.Holds (k : Knowledge ι Own Shared Event) (log : List Event)
    (s : System ι Own Shared) : Prop where
  holds : k.holds log s.shared
  each : ∀ i, k.At i (s.own i) log s.shared

/-- Two agents are never in the section. -/
lemma Knowledge.Holds.exclusive {log : List Event} {s : System ι Own Shared} (h : k.Holds log s)
    {i j : ι} (hi : k.inside (s.own i)) (hj : k.inside (s.own j)) : i = j :=
  Option.some.inj (((h.each i).inside_iff.1 hi).symm.trans ((h.each j).inside_iff.1 hj))

variable [DecidableEq ι] {step}

/-- **What is kept by each action holds in every run.** -/
theorem Run.invariant (hguarded : Guarded step k) {s₀ s : System ι Own Shared} {log : List Event}
    (h₀ : k.Holds [] s₀) (h : Run step s₀ log s) : k.Holds log s := by
  induction h with
  | init => exact h₀
  | @act log s i a own shared events _ hstep ih =>
    obtain ⟨hholds, hself⟩ := hguarded.self ih.holds (ih.each i) hstep
    refine ⟨hholds, fun j => ?_⟩
    change k.At j (Function.update s.own i own j) (log ++ events) shared
    by_cases hj : j = i
    · subst hj
      rw [Function.update_self]
      exact hself
    · rw [Function.update_of_ne hj]
      exact hguarded.other hj ih.holds (ih.each i) hstep (ih.each j)

end Wpm.Lib.Critical
