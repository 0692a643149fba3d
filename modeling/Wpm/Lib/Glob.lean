import Mathlib.Computability.Language

/-!
Patterns with a star, as languages.

A pattern is a list of characters of which one, the star, stands for any string and every other one
for itself; its language is the product of theirs.
-/

namespace Wpm.Lib.Glob

variable {α : Type*} [DecidableEq α]

/-- What one character of a pattern stands for. -/
def symbol (star c : α) : Language α := if c = star then ⊤ else {[c]}

/-- **The language of a pattern.** -/
def glob (star : α) (pattern : List α) : Language α := (pattern.map (symbol star)).prod

variable {star c : α} {pattern text : List α}

lemma mem_glob_nil : text ∈ glob star [] ↔ text = [] := Language.mem_one text

/-- A star stands for what comes before some end of the text. -/
lemma mem_glob_star : text ∈ glob star (star :: pattern) ↔
    ∃ rest, rest <:+ text ∧ rest ∈ glob star pattern := by
  rw [glob, List.map_cons, List.prod_cons, Language.mem_mul, symbol, if_pos rfl]
  constructor
  · rintro ⟨a, -, rest, hrest, rfl⟩
    exact ⟨rest, List.suffix_append a rest, hrest⟩
  · rintro ⟨rest, ⟨a, rfl⟩, hrest⟩
    exact ⟨a, trivial, rest, hrest, rfl⟩

/-- Any other character stands for itself. -/
lemma mem_glob_cons (hc : c ≠ star) : text ∈ glob star (c :: pattern) ↔
    ∃ rest, text = c :: rest ∧ rest ∈ glob star pattern := by
  rw [glob, List.map_cons, List.prod_cons, Language.mem_mul, symbol, if_neg hc]
  constructor
  · rintro ⟨a, ha, rest, hrest, rfl⟩
    obtain rfl : a = [c] := ha
    exact ⟨rest, rfl, hrest⟩
  · rintro ⟨rest, rfl, hrest⟩
    exact ⟨[c], rfl, rest, hrest, rfl⟩

/-- What ends a pattern ends its texts: the last character of a pattern, if that is no star. -/
lemma getLast?_of_mem_glob (hc : c ≠ star) (h : text ∈ glob star (pattern ++ [c])) :
    text.getLast? = some c := by
  rw [glob, List.map_append, List.prod_append, List.map_singleton, List.prod_singleton,
    Language.mem_mul, symbol, if_neg hc] at h
  obtain ⟨a, -, b, hb, rfl⟩ := h
  obtain rfl : b = [c] := hb
  exact List.getLast?_concat

end Wpm.Lib.Glob
