import Mathlib.Data.List.Basic
import Mathlib.Tactic.Common

/-!
Encodings that are read back from left to right.

An encoding separates when two values whose encodings begin the same bytes are the same value, and
leave the same bytes after them (`Separates`). Terminated texts are encoded so. A list of encodings
that separate is told from any other list, with a tail of a fixed length after both, when the tail is
shorter than every encoding.
-/

namespace Wpm.Lib.PrefixCode

variable {α γ : Type*}

/-- **The values with `p` are read back** from their encodings, whatever comes after these. -/
def Separates (p : α → Prop) (encode : α → List γ) : Prop :=
  ∀ ⦃a a' : α⦄ ⦃x x' : List γ⦄, p a → p a' → encode a ++ x = encode a' ++ x' → a = a' ∧ x = x'

variable {p : α → Prop} {f : α → List γ}

/-- Texts with a terminator that does not occur in them. -/
lemma separates_terminated (z : γ) : Separates (fun t : List γ => z ∉ t) fun t => t ++ [z] := by
  intro t t' x x' ht ht' h
  induction t generalizing t' with
  | nil =>
    cases t' with
    | nil => exact ⟨rfl, (List.cons.inj h).2⟩
    | cons c t' => exact absurd ((List.cons.inj h).1 ▸ List.mem_cons_self) ht'
  | cons c t ih =>
    cases t' with
    | nil => exact absurd ((List.cons.inj h).1 ▸ List.mem_cons_self) ht
    | cons c' t' =>
      obtain ⟨hc, htail⟩ := List.cons.inj h
      obtain ⟨hrest, hx⟩ := ih (fun hz => ht (List.mem_cons_of_mem c hz))
        (fun hz => ht' (List.mem_cons_of_mem c' hz)) htail
      exact ⟨by rw [hc, hrest], hx⟩

/-- As many values as there are in another list. -/
lemma Separates.flatMap_of_length (hf : Separates p f) : ∀ {l l' : List α} {x x' : List γ},
    l.length = l'.length → (∀ a ∈ l, p a) → (∀ a ∈ l', p a) →
    l.flatMap f ++ x = l'.flatMap f ++ x' → l = l' ∧ x = x'
  | [], [], _, _, _, _, _, h => ⟨rfl, h⟩
  | a :: l, a' :: l', x, x', hlen, hl, hl', h => by
    rw [List.flatMap_cons, List.flatMap_cons, List.append_assoc, List.append_assoc] at h
    obtain ⟨rfl, hrest⟩ := hf (hl a List.mem_cons_self) (hl' a' List.mem_cons_self) h
    obtain ⟨rfl, hx⟩ := hf.flatMap_of_length (Nat.succ.inj hlen)
      (fun b hb => hl b (List.mem_cons_of_mem a hb))
      (fun b hb => hl' b (List.mem_cons_of_mem a hb)) hrest
    exact ⟨rfl, hx⟩

/-- **Two lists with tails are told apart** when their tails are as long as each other, and shorter
than the encoding of every member. -/
theorem Separates.flatMap_append (hf : Separates p f) {t t' : List γ} (ht : t.length = t'.length)
    (hlong : ∀ a, p a → t.length < (f a).length) : ∀ {l l' : List α},
    (∀ a ∈ l, p a) → (∀ a ∈ l', p a) → l.flatMap f ++ t = l'.flatMap f ++ t' → l = l' ∧ t = t'
  | [], [], _, _, h => ⟨rfl, h⟩
  | a :: l, [], hl, _, h => by
    have hlength := congrArg List.length h
    have ha := hlong a (hl a List.mem_cons_self)
    simp only [List.flatMap_cons, List.flatMap_nil, List.length_append, List.length_nil] at hlength
    omega
  | [], a' :: l', _, hl', h => by
    have hlength := congrArg List.length h
    have ha := hlong a' (hl' a' List.mem_cons_self)
    simp only [List.flatMap_cons, List.flatMap_nil, List.length_append, List.length_nil] at hlength
    omega
  | a :: l, a' :: l', hl, hl', h => by
    rw [List.flatMap_cons, List.flatMap_cons, List.append_assoc, List.append_assoc] at h
    obtain ⟨rfl, hrest⟩ := hf (hl a List.mem_cons_self) (hl' a' List.mem_cons_self) h
    obtain ⟨rfl, hx⟩ := hf.flatMap_append ht hlong
      (fun b hb => hl b (List.mem_cons_of_mem a hb))
      (fun b hb => hl' b (List.mem_cons_of_mem a hb)) hrest
    exact ⟨rfl, hx⟩

end Wpm.Lib.PrefixCode
