import Wpm.Lib.CString

/-!
UTF-8.

A text of characters is encoded one after the other (`utf8`), and bytes are well-formed when they
encode some text. A character below U+0080 is its own byte, and the bytes of all others are beyond
those (`utf8_ascii`, `le_of_mem_utf8`).
-/

namespace Wpm.Lib.Utf8

open Wpm.Lib.CString

/-- The UTF-8 bytes of a text. -/
def utf8 (l : List Char) : Bytes := l.flatMap String.utf8EncodeChar

/-- The encoding of some text: there is no other form of it, no surrogate and nothing beyond
U+10FFFF. -/
def WellFormed (bytes : Bytes) : Prop := ∃ l, bytes = utf8 l

lemma utf8_nil : utf8 [] = [] := rfl

lemma utf8_cons (c : Char) (l : List Char) : utf8 (c :: l) = String.utf8EncodeChar c ++ utf8 l :=
  List.flatMap_cons

lemma utf8_append (l l' : List Char) : utf8 (l ++ l') = utf8 l ++ utf8 l' := List.flatMap_append

lemma utf8_ascii {c : Char} (h : c.toNat < 0x80) :
    String.utf8EncodeChar c = [UInt8.ofNat c.toNat] := by
  have hn : c.val.toNat ≤ 0x7f := Nat.le_of_lt_succ h
  rw [String.utf8EncodeChar, if_pos hn]
  rfl

lemma utf8_two {c : Char} (h : 0x80 ≤ c.toNat) (h' : c.toNat < 0x800) :
    String.utf8EncodeChar c =
      [UInt8.ofNat (c.toNat / 64 + 0xc0), UInt8.ofNat (c.toNat % 64 + 0x80)] := by
  have h1 : ¬c.val.toNat ≤ 0x7f := Nat.not_le.2 h
  have h2 : c.val.toNat ≤ 0x7ff := Nat.le_of_lt_succ h'
  have hmod : c.val.toNat / 64 % 0x20 = c.val.toNat / 64 := Nat.mod_eq_of_lt (by omega)
  rw [String.utf8EncodeChar, if_neg h1, if_pos h2, hmod]
  rfl

lemma utf8_three {c : Char} (h : 0x800 ≤ c.toNat) (h' : c.toNat < 0x10000) :
    String.utf8EncodeChar c = [UInt8.ofNat (c.toNat / 4096 + 0xe0),
      UInt8.ofNat (c.toNat / 64 % 64 + 0x80), UInt8.ofNat (c.toNat % 64 + 0x80)] := by
  have h1 : ¬c.val.toNat ≤ 0x7f := Nat.not_le.2 ((by decide : 0x80 ≤ 0x800).trans h)
  have h2 : ¬c.val.toNat ≤ 0x7ff := Nat.not_le.2 h
  have h3 : c.val.toNat ≤ 0xffff := Nat.le_of_lt_succ h'
  have hmod : c.val.toNat / 4096 % 0x10 = c.val.toNat / 4096 := Nat.mod_eq_of_lt (by omega)
  rw [String.utf8EncodeChar, if_neg h1, if_neg h2, if_pos h3, hmod]
  rfl

/-- A character is no surrogate and not beyond U+10FFFF. -/
lemma toNat_valid (c : Char) : c.toNat < 0xd800 ∨ (0xdfff < c.toNat ∧ c.toNat < 0x110000) := c.valid

lemma utf8_four {c : Char} (h : 0x10000 ≤ c.toNat) :
    String.utf8EncodeChar c = [UInt8.ofNat (c.toNat / 262144 + 0xf0),
      UInt8.ofNat (c.toNat / 4096 % 64 + 0x80), UInt8.ofNat (c.toNat / 64 % 64 + 0x80),
      UInt8.ofNat (c.toNat % 64 + 0x80)] := by
  have h1 : ¬c.val.toNat ≤ 0x7f := Nat.not_le.2 ((by decide : 0x80 ≤ 0x10000).trans h)
  have h2 : ¬c.val.toNat ≤ 0x7ff := Nat.not_le.2 ((by decide : 0x800 ≤ 0x10000).trans h)
  have h3 : ¬c.val.toNat ≤ 0xffff := Nat.not_le.2 h
  have hvalid := toNat_valid c
  have hlt : c.val.toNat < 0x110000 := by
    change c.toNat < 0x110000
    omega
  have hmod : c.val.toNat / 262144 % 0x08 = c.val.toNat / 262144 := Nat.mod_eq_of_lt (by omega)
  rw [String.utf8EncodeChar, if_neg h1, if_neg h2, if_neg h3, hmod]
  rfl

lemma le_of_mem_utf8 {c : Char} (h : 0x80 ≤ c.toNat) {b : UInt8}
    (hb : b ∈ String.utf8EncodeChar c) : 0x80 ≤ b := by
  have hle : ∀ n, 0x80 ≤ n → n < 256 → 0x80 ≤ UInt8.ofNat n := by
    intro n hn hlt
    rw [UInt8.le_iff_toNat_le, UInt8.toNat_ofNat_of_lt' hlt]
    exact hn
  have hn : ¬c.val.toNat ≤ 0x7f := Nat.not_le.2 h
  rw [String.utf8EncodeChar, if_neg hn] at hb
  split_ifs at hb <;>
  · simp only [List.mem_cons, List.not_mem_nil, or_false] at hb
    rcases hb with rfl | rfl | rfl | rfl <;> exact hle _ (by omega) (by omega)

/-- The character of a valid code point. -/
lemma toNat_ofNat {n : ℕ} (h : n < 0xd800 ∨ (0xdfff < n ∧ n < 0x110000)) :
    (Char.ofNat n).toNat = n := by
  have hvalid : n.isValidChar := h
  rw [Char.ofNat, dif_pos hvalid]
  rfl

/-- An encoded text is cut at an ASCII character: both sides of it encode texts. -/
lemma utf8_eq_append_cons {b : UInt8} (hb : b < 0x80) : ∀ {l : List Char} {a r : Bytes},
    utf8 l = a ++ b :: r → ∃ l₁ l₂, utf8 l₁ = a ∧ utf8 l₂ = r
  | [], a, r, h => by simp [utf8_nil] at h
  | c :: l, a, r, h => by
    rw [utf8_cons] at h
    by_cases hc : c.toNat < 0x80
    · rw [utf8_ascii hc, List.singleton_append] at h
      cases a with
      | nil => exact ⟨[], l, rfl, (List.cons.inj h).2⟩
      | cons d a =>
        obtain ⟨hd, htail⟩ := List.cons.inj h
        obtain ⟨l₁, l₂, h₁, h₂⟩ := utf8_eq_append_cons hb htail
        exact ⟨c :: l₁, l₂, by rw [utf8_cons, utf8_ascii hc, h₁, ← hd]; rfl, h₂⟩
    · have hlong : ∀ d ∈ String.utf8EncodeChar c, 0x80 ≤ d := fun d hd =>
        le_of_mem_utf8 (Nat.not_lt.1 hc) hd
      obtain ⟨t, ht⟩ : String.utf8EncodeChar c <+: a := by
        rcases List.append_eq_append_iff.1 h with ⟨t, rfl, -⟩ | ⟨t, ht, hr⟩
        · exact List.prefix_append _ t
        · cases t with
          | nil => exact ⟨[], by rw [ht, List.append_nil, List.append_nil]⟩
          | cons d t =>
            obtain rfl := (List.cons.inj hr).1
            have hd := hlong b (ht ▸ List.mem_append_right a List.mem_cons_self)
            exact absurd hb (UInt8.not_lt.2 hd)
      rw [← ht, List.append_assoc] at h
      obtain ⟨l₁, l₂, h₁, h₂⟩ := utf8_eq_append_cons hb (List.append_cancel_left h)
      exact ⟨c :: l₁, l₂, by rw [utf8_cons, h₁, ht], h₂⟩

/-- What is left of an encoded text after ASCII bytes is encoded, too. -/
lemma WellFormed.of_append {a b : Bytes} (h : WellFormed (a ++ b)) (ha : ∀ d ∈ a, d < 0x80) :
    WellFormed b := by
  induction a with
  | nil => exact h
  | cons d a ih =>
    obtain ⟨l, hl⟩ := h
    obtain ⟨-, l₂, -, hl₂⟩ :=
      utf8_eq_append_cons (a := []) (ha d List.mem_cons_self) hl.symm
    exact ih ⟨l₂, hl₂.symm⟩ fun e he => ha e (List.mem_cons_of_mem d he)

end Wpm.Lib.Utf8
