import Wpm.Lib.CString

/-!
Where `strstr` finds a string in a text that is put together, and how two ways to put a text together
meet.
-/

namespace Wpm.Lib.CString

variable {needle a b p s : Bytes}

lemma strstr_cons_self {c : UInt8} (h : needle <+: c :: s) :
    strstr needle (c :: s) = some (c :: s) := if_pos (List.isPrefixOf_iff_prefix.2 h)

lemma strstr_cons_next {c : UInt8} (h : ¬needle <+: c :: s) :
    strstr needle (c :: s) = strstr needle s := if_neg (mt List.isPrefixOf_iff_prefix.1 h)

/-- At the start of the text. -/
lemma strstr_append_self (hne : needle ≠ []) (s : Bytes) :
    strstr needle (needle ++ s) = some (needle ++ s) := by
  cases needle with
  | nil => exact absurd rfl hne
  | cons c needle => exact strstr_cons_self (List.prefix_append _ s)

/-- What is found is the end of the text, and starts with the string. -/
lemma strstr_eq_some (h : strstr needle s = some p) : p <:+ s ∧ needle <+: p := by
  induction s with
  | nil =>
    obtain ⟨rfl, hp⟩ := Option.ite_none_right_eq_some.1 h
    exact ⟨Option.some.inj hp ▸ List.suffix_refl _, List.nil_prefix⟩
  | cons c s ih =>
    by_cases hstart : needle <+: c :: s
    · rw [strstr_cons_self hstart] at h
      obtain rfl := Option.some.inj h
      exact ⟨List.suffix_refl _, hstart⟩
    · rw [strstr_cons_next hstart] at h
      exact ⟨(ih h).1.trans (List.suffix_cons c s), (ih h).2⟩

/-- The first occurrence stays the first one when text is added. -/
lemma strstr_append_of_eq_some (h : strstr needle a = some p) (b : Bytes) :
    strstr needle (a ++ b) = some (p ++ b) := by
  induction a with
  | nil =>
    obtain ⟨rfl, hp⟩ := Option.ite_none_right_eq_some.1 h
    rw [← Option.some.inj hp]
    cases b with
    | nil => rfl
    | cons c b => rfl
  | cons c a ih =>
    by_cases hstart : needle <+: c :: a
    · rw [strstr_cons_self hstart] at h
      obtain rfl := Option.some.inj h
      exact strstr_cons_self (hstart.trans (List.prefix_append (c :: a) b))
    · rw [strstr_cons_next hstart] at h
      have hlength := ((strstr_eq_some h).2.length_le).trans (strstr_eq_some h).1.length_le
      have hstart' : ¬needle <+: c :: (a ++ b) := fun hlong => by
        refine hstart (List.prefix_of_prefix_length_le hlong (List.prefix_append (c :: a) b) ?_)
        exact hlength.trans (Nat.le_succ _)
      rw [List.cons_append, strstr_cons_next hstart', ih h]

/-- No occurrence reaches over a character that is not in the string. -/
lemma strstr_append_cons_of_eq_none {c : UInt8} (hne : needle ≠ []) (hc : c ∉ needle)
    (h : strstr needle a = none) (b : Bytes) :
    strstr needle (a ++ c :: b) = strstr needle b := by
  induction a with
  | nil =>
    refine strstr_cons_next fun hstart => ?_
    cases needle with
    | nil => exact hne rfl
    | cons n needle => exact hc ((List.cons_prefix_cons.1 hstart).1 ▸ List.mem_cons_self)
  | cons x a ih =>
    by_cases hstart : needle <+: x :: a
    · rw [strstr_cons_self hstart] at h
      cases h
    · rw [strstr_cons_next hstart] at h
      rw [List.cons_append, strstr_cons_next, ih h]
      intro hlong
      have hover : x :: a ++ [c] <+: x :: (a ++ c :: b) :=
        ⟨b, by rw [List.append_assoc, List.singleton_append, List.cons_append]⟩
      rcases List.prefix_or_prefix_of_prefix hlong hover with hshort | hshort
      · rcases List.prefix_concat_iff.1 hshort with rfl | hshort
        · exact hc (List.mem_append_right _ List.mem_cons_self)
        · exact hstart hshort
      · exact hc (hshort.subset (List.mem_append_right _ List.mem_cons_self))

/-! ### A text that is put together in two ways -/

/-- A character of two texts stands in the first or in the second one. -/
lemma append_eq_append_cons {x y before z : Bytes} {c : UInt8} (h : x ++ y = before ++ c :: z) :
    (∃ a, x = before ++ c :: a) ∨ ∃ a, before = x ++ a ∧ y = a ++ c :: z := by
  rcases List.append_eq_append_iff.1 h with ⟨a, rfl, hy⟩ | ⟨a, rfl, hc⟩
  · exact .inr ⟨a, rfl, hy⟩
  · cases a with
    | nil => exact .inr ⟨[], by simp, hc.symm⟩
    | cons d a =>
      obtain ⟨rfl, -⟩ := List.cons.inj hc
      exact .inl ⟨a, rfl⟩

/-- A text without this character stands before it or behind it. -/
lemma append_cons_eq_append {x y before s v : Bytes} {d : UInt8} (hd : d ∉ s)
    (h : x ++ d :: y = before ++ (s ++ v)) :
    (∃ w, x = before ++ (s ++ w) ∧ v = w ++ d :: y) ∨
      ∃ a, before = x ++ d :: a ∧ y = a ++ (s ++ v) := by
  rcases List.append_eq_append_iff.1 h with ⟨a, rfl, hy⟩ | ⟨a, rfl, hsplit⟩
  · cases a with
    | cons e a =>
      obtain ⟨rfl, rfl⟩ := List.cons.inj hy
      exact .inr ⟨a, rfl, rfl⟩
    | nil =>
      cases s with
      | nil => exact .inl ⟨[], by simp, hy.symm⟩
      | cons e s =>
        obtain ⟨rfl, -⟩ := List.cons.inj hy
        exact absurd List.mem_cons_self hd
  · rcases List.append_eq_append_iff.1 hsplit with ⟨w, rfl, hv⟩ | ⟨m, rfl, hm⟩
    · exact .inl ⟨w, rfl, hv⟩
    · cases m with
      | nil => exact .inl ⟨[], by simp, hm.symm⟩
      | cons e m =>
        obtain ⟨rfl, -⟩ := List.cons.inj hm
        exact absurd (List.mem_append_right a List.mem_cons_self) hd

end Wpm.Lib.CString
