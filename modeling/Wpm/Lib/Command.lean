import Mathlib.Data.List.Infix
import Mathlib.Tactic.Common

/-!
Commands that may stop early.

A command over a state answers, or stops without an answer, and leaves the state it changed in
either case: what a C function does that returns success or failure and works on variables of the
process. The rules of the triples follow the commands, with one postcondition for an answer and one
for an early stop. The last section keeps a history of events, newest first, in which every event
was allowed by the ones before it.
-/

namespace Wpm.Lib.Command

/-- A command: its answer, unless it stops early, and the state it leaves. -/
def Cmd (σ α : Type) : Type := σ → Option α × σ

variable {σ α β ε : Type}

namespace Cmd

instance : Monad (Cmd σ) where
  pure a := fun s => (some a, s)
  bind c f := fun s => match c s with
    | (some a, s') => f a s'
    | (none, s') => (none, s')

/-- Stop. -/
def fail : Cmd σ α := fun s => (none, s)

def get : Cmd σ σ := fun s => (some s, s)

def modify (f : σ → σ) : Cmd σ Unit := fun s => (some (), f s)

/-- Go on if `p` holds. -/
def guard (p : Prop) [Decidable p] : Cmd σ Unit := if p then pure () else fail

/-- Go on with the value, if there is one. -/
def ofOption : Option α → Cmd σ α
  | some a => pure a
  | none => fail

/-- Run the command and tell whether it came to its end. -/
def attempt (c : Cmd σ α) : Cmd σ Bool := fun s => (some (c s).1.isSome, (c s).2)

/-- Run the command, and `h` when it stops early: the stop remains. -/
def onFail (c : Cmd σ α) (h : Cmd σ Unit) : Cmd σ α := fun s => match c s with
  | (some a, s') => (some a, s')
  | (none, s') => (none, (h s').2)

@[simp] lemma pure_bind (a : α) (f : α → Cmd σ β) : (pure a : Cmd σ α) >>= f = f a := rfl

/-- Sequencing, after an answer. -/
lemma bind_of_some {c : Cmd σ α} {f : α → Cmd σ β} {s s' : σ} {a : α} (h : c s = (some a, s')) :
    (c >>= f) s = f a s' := by
  change (match c s with
    | (some a, s') => f a s'
    | (none, s') => (none, s')) = f a s'
  rw [h]

/-- Sequencing, after a stop. -/
lemma bind_of_none {c : Cmd σ α} {f : α → Cmd σ β} {s s' : σ} (h : c s = (none, s')) :
    (c >>= f) s = (none, s') := by
  change (match c s with
    | (some a, s') => f a s'
    | (none, s') => (none, s')) = (none, s')
  rw [h]

@[simp] lemma guard_pos {p : Prop} [Decidable p] (h : p) :
    (guard p : Cmd σ Unit) = pure () := if_pos h

@[simp] lemma ofOption_some (a : α) : (ofOption (some a) : Cmd σ α) = pure a := rfl

end Cmd

/-! ### Triples -/

/-- **The command meets its postconditions**: from a state with `P` it leaves one with `Q` when it
answers, and one with `E` when it stops early. -/
def Triple (P : σ → Prop) (c : Cmd σ α) (Q : α → σ → Prop) (E : σ → Prop) : Prop :=
  ∀ s, P s → (∀ a s', c s = (some a, s') → Q a s') ∧ ∀ s', c s = (none, s') → E s'

namespace Triple

variable {P P' : σ → Prop} {Q Q' : α → σ → Prop} {R : β → σ → Prop} {E E' : σ → Prop}
  {c : Cmd σ α} {f : α → Cmd σ β} {s : σ} {a : α}

lemma answer (h : Triple P c Q E) (hs : P s) (ha : (c s).1 = some a) : Q a (c s).2 :=
  (h s hs).1 a _ (Prod.ext ha rfl)

lemma stopped (h : Triple P c Q E) (hs : P s) (hn : (c s).1 = none) : E (c s).2 :=
  (h s hs).2 _ (Prod.ext hn rfl)

/-- A postcondition that does not depend on the answer holds of the state left. -/
lemma left (h : Triple P c (fun _ => E) E) (hs : P s) : E (c s).2 := by
  cases ho : (c s).1 with
  | some a => exact h.answer hs ho
  | none => exact h.stopped hs ho

/-- **The rule of consequence.** -/
lemma weaken (h : Triple P c Q E) (hP : ∀ s, P' s → P s) (hQ : ∀ a s, Q a s → Q' a s)
    (hE : ∀ s, E s → E' s) : Triple P' c Q' E' := fun s hs =>
  ⟨fun a s' he => hQ a s' ((h s (hP s hs)).1 a s' he), fun s' he => hE s' ((h s (hP s hs)).2 s' he)⟩

lemma pre (h : Triple P c Q E) (hP : ∀ s, P' s → P s) : Triple P' c Q E :=
  h.weaken hP (fun _ _ hq => hq) fun _ he => he

lemma post (h : Triple P c Q E) (hQ : ∀ a s, Q a s → Q' a s) : Triple P c Q' E :=
  h.weaken (fun _ hp => hp) hQ fun _ he => he

/-- A triple at one state that meets its precondition. -/
lemma from_state (h : Triple P c Q E) (hs : P s) : Triple (· = s) c Q E :=
  h.pre fun _ ht => ht ▸ hs

/-- What does not depend on the state may be taken out of the precondition. -/
lemma of_imp {p : Prop} (h : p → Triple P c Q E) : Triple (fun s => p ∧ P s) c Q E :=
  fun s hs => h hs.1 s hs.2

lemma of_exists {γ : Type} {P : γ → σ → Prop} (h : ∀ x, Triple (P x) c Q E) :
    Triple (fun s => ∃ x, P x s) c Q E := fun s hs => hs.elim fun x hx => h x s hx

lemma pure (h : ∀ s, P s → Q a s) : Triple P (pure a : Cmd σ α) Q E := by
  intro s hs
  refine ⟨fun b s' he => ?_, fun s' he => ?_⟩
  · obtain ⟨hb, rfl⟩ := Prod.mk.inj he
    rw [← Option.some.inj hb]
    exact h s hs
  · exact absurd (Prod.mk.inj he).1 (by simp)

/-- **Sequencing**: the second command starts from what the first one left. -/
lemma bind (hc : Triple P c Q E) (hf : ∀ a, Triple (Q a) (f a) R E) : Triple P (c >>= f) R E := by
  intro s hs
  have hbind : (c >>= f) s = match c s with
    | (some a, s') => f a s'
    | (none, s') => (none, s') := rfl
  rw [hbind]
  rcases he : c s with ⟨_ | a, s'⟩
  · refine ⟨fun b t ht => absurd (Prod.mk.inj ht).1 (by simp), fun t ht => ?_⟩
    rw [← (Prod.mk.inj ht).2]
    exact (hc s hs).2 s' he
  · exact hf a s' ((hc s hs).1 a s' he)

lemma fail (h : ∀ s, P s → E s) : Triple P (Cmd.fail : Cmd σ α) Q E := by
  intro s hs
  refine ⟨fun b s' he => absurd (Prod.mk.inj he).1 (by simp), fun s' he => ?_⟩
  rw [← (Prod.mk.inj he).2]
  exact h s hs

/-- Reading the state: what follows may use that it is the one read. -/
lemma get_bind {f : σ → Cmd σ β} (h : ∀ s, P s → Triple (· = s) (f s) R E) :
    Triple P (Cmd.get >>= f) R E := fun s hs => h s hs s rfl

lemma modify {g : σ → σ} {Q : Unit → σ → Prop} (h : ∀ s, P s → Q () (g s)) :
    Triple P (Cmd.modify g) Q E := by
  intro s hs
  refine ⟨fun b s' he => ?_, fun s' he => absurd (Prod.mk.inj he).1 (by simp)⟩
  rw [← (Prod.mk.inj he).2]
  exact h s hs

lemma ite {p : Prop} [Decidable p] {d : Cmd σ α} (h1 : p → Triple P c Q E)
    (h2 : ¬p → Triple P d Q E) : Triple P (if p then c else d) Q E := by
  split
  · exact h1 ‹_›
  · exact h2 ‹_›

lemma guard {p : Prop} [Decidable p] {Q : Unit → σ → Prop} (h1 : p → ∀ s, P s → Q () s)
    (h2 : ¬p → ∀ s, P s → E s) : Triple P (Cmd.guard p) Q E :=
  ite (fun hp => pure (h1 hp)) fun hp => fail (h2 hp)

lemma ofOption {o : Option α} (h1 : ∀ a, o = some a → ∀ s, P s → Q a s)
    (h2 : o = none → ∀ s, P s → E s) : Triple P (Cmd.ofOption o) Q E := by
  cases o with
  | some a => exact pure (h1 a rfl)
  | none => exact fail (h2 rfl)

lemma attempt {E' : σ → Prop} (h : Triple P c Q E) :
    Triple P c.attempt (fun b s => if b then ∃ a, Q a s else E s) E' := by
  intro s hs
  refine ⟨fun b s' he => ?_, fun s' he => absurd (Prod.mk.inj he).1 (by simp)⟩
  obtain ⟨hb, rfl⟩ := Prod.mk.inj he
  obtain rfl := Option.some.inj hb
  cases ho : (c s).1 with
  | some a => exact ⟨a, h.answer hs ho⟩
  | none => exact h.stopped hs ho

lemma onFail {d : Cmd σ Unit} (h : Triple P c Q E) (hd : Triple E d (fun _ => E') E') :
    Triple P (c.onFail d) Q E' := by
  intro s hs
  have hfail : (c.onFail d) s = match c s with
    | (some a, s') => (some a, s')
    | (none, s') => (none, (d s').2) := rfl
  rw [hfail]
  rcases he : c s with ⟨_ | a, s'⟩
  · refine ⟨fun b t ht => absurd (Prod.mk.inj ht).1 (by simp), fun t ht => ?_⟩
    rw [← (Prod.mk.inj ht).2]
    exact hd.left ((h s hs).2 s' he)
  · refine ⟨fun b t ht => ?_, fun t ht => absurd (Prod.mk.inj ht).1 (by simp)⟩
    obtain ⟨hb, rfl⟩ := Prod.mk.inj ht
    rw [← Option.some.inj hb]
    exact (h s hs).1 a s' he

end Triple

/-- A condition on the states that the command keeps, whether it answers or stops. -/
abbrev Keeps (P : σ → Prop) (c : Cmd σ α) : Prop := Triple P c (fun _ => P) P

lemma Keeps.guard {P : σ → Prop} {p : Prop} [Decidable p] : Keeps P (Cmd.guard p) :=
  Triple.guard (fun _ _ hs => hs) fun _ _ hs => hs

lemma Keeps.ofOption {P : σ → Prop} {o : Option α} : Keeps P (Cmd.ofOption o) :=
  Triple.ofOption (fun _ _ _ hs => hs) fun _ _ hs => hs

lemma Keeps.bind {P : σ → Prop} {c : Cmd σ α} {f : α → Cmd σ β} (hc : Keeps P c)
    (hf : ∀ a, Keeps P (f a)) : Keeps P (c >>= f) := Triple.bind hc hf

/-- Reading the state, when what follows uses it for decisions only. -/
lemma Keeps.get_bind {P : σ → Prop} {f : σ → Cmd σ β} (h : ∀ s, P s → Keeps P (f s)) :
    Keeps P (Cmd.get >>= f) := Triple.get_bind fun s hs => (h s hs).from_state hs

/-- **The run rule**: what every command of a list keeps holds after all of them, each taken up
whether or not the one before it stopped early. -/
lemma Keeps.foldl {P : σ → Prop} {cs : List (Cmd σ α)} (h : ∀ c ∈ cs, Keeps P c) {s : σ}
    (hs : P s) : P (cs.foldl (fun s c => (c s).2) s) := by
  induction cs generalizing s with
  | nil => exact hs
  | cons c cs ih =>
    refine ih (fun d hd => h d (List.mem_cons_of_mem _ hd)) ?_
    exact (h c List.mem_cons_self).left hs

/-- **The loop rule**: what the body keeps for every element holds after the loop, with any
accumulator. -/
lemma Keeps.foldlM {P : σ → Prop} {f : β → α → Cmd σ β} {l : List α}
    (h : ∀ b, ∀ a ∈ l, Keeps P (f b a)) (b : β) : Keeps P (l.foldlM f b) := by
  induction l generalizing b with
  | nil => exact Triple.pure fun _ hs => hs
  | cons a l ih =>
    rw [List.foldlM_cons]
    refine (h b a List.mem_cons_self).bind fun c => ?_
    exact ih (fun d x hx => h d x (List.mem_cons_of_mem a hx)) c

/-! ### Histories -/

/-- Every event of the history, newest first, was allowed by the events before it. -/
inductive History (ok : ε → List ε → Prop) : List ε → Prop
  | nil : History ok []
  | cons {e : ε} {before : List ε} (h : ok e before) (l : History ok before) :
    History ok (e :: before)

lemma History.mono {ok ok' : ε → List ε → Prop} (h : ∀ e before, ok e before → ok' e before)
    {l : List ε} (hl : History ok l) : History ok' l := by
  induction hl with
  | nil => exact .nil
  | cons he _ ih => exact .cons (h _ _ he) ih

lemma History.of_mem {ok : ε → List ε → Prop} {l : List ε} (hl : History ok l) {e : ε}
    (he : e ∈ l) : ∃ before, before <:+ l ∧ ok e before := by
  induction hl with
  | nil => exact absurd he List.not_mem_nil
  | cons h _ ih =>
    rcases List.mem_cons.1 he with rfl | he
    · exact ⟨_, List.suffix_cons _ _, h⟩
    · obtain ⟨before, hbefore, hok⟩ := ih he
      exact ⟨before, hbefore.trans (List.suffix_cons _ _), hok⟩

/-- The history as it was `n` events ago. -/
lemma History.drop {ok : ε → List ε → Prop} {l : List ε} (n : ℕ) (hl : History ok l) :
    History ok (l.drop n) := by
  induction hl generalizing n with
  | nil => exact (List.drop_nil : ([] : List ε).drop n = []).symm ▸ .nil
  | cons he hl ih => cases n with
    | zero => exact .cons he hl
    | succ n => exact ih n

end Wpm.Lib.Command
