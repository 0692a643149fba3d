import Wpm.JsonOutput
import Wpm.JsonStrings

/-!
UTF-8 in what is written and in what is read.

`json_utf8` accepts the well-formed texts, and the reader of strings puts out the encoding of the
code points of a token that is well-formed.
-/

namespace Wpm.JsonOutput

open Wpm.Lib.CString Wpm.Lib.Utf8 Wpm.JsonInput
open Wpm.Lib.Json hiding hexValue

/-! ### The validator -/

/-- A continuation byte with these bits. -/
lemma utf8Rest_cons {n : ℕ} (hn : n < 64) (remaining value : ℕ) (p : Bytes) :
    utf8Rest (remaining + 1) value (UInt8.ofNat (n + 0x80) :: p) =
      utf8Rest remaining (value * 64 + n) p := by
  have hnat : (UInt8.ofNat (n + 0x80)).toNat = n + 0x80 := UInt8.toNat_ofNat_of_lt' (by
    change n + 0x80 < 256
    omega)
  have hrange : 0x80 ≤ UInt8.ofNat (n + 0x80) ∧ UInt8.ofNat (n + 0x80) ≤ 0xbf := by
    rw [UInt8.le_iff_toNat_le, UInt8.le_iff_toNat_le, hnat]
    exact ⟨Nat.le_add_left _ _, Nat.add_le_add_right (Nat.le_of_lt_succ hn) 0x80⟩
  have hmod : (n + 0x80) % 64 = n := by omega
  rw [utf8Rest, cur_cons, if_pos hrange, hnat, hmod, List.tail_cons]

/-- What a continuation byte is. -/
lemma utf8Rest_eq_some {remaining value w : ℕ} {p r : Bytes}
    (h : utf8Rest (remaining + 1) value p = some (w, r)) : ∃ n p', n < 64 ∧
      p = UInt8.ofNat (n + 0x80) :: p' ∧ utf8Rest remaining (value * 64 + n) p' = some (w, r) := by
  rw [utf8Rest] at h
  obtain ⟨⟨hlow, hhigh⟩, h⟩ := Option.ite_none_right_eq_some.1 h
  cases p with
  | nil => exact absurd hlow (by decide)
  | cons d p =>
    rw [cur_cons] at hlow hhigh h
    have hlow' : 0x80 ≤ d.toNat := UInt8.le_iff_toNat_le.1 hlow
    have hhigh' : d.toNat ≤ 0xbf := UInt8.le_iff_toNat_le.1 hhigh
    refine ⟨d.toNat % 64, p, Nat.mod_lt _ (by decide), ?_, h⟩
    have hd : d.toNat % 64 + 0x80 = d.toNat := by omega
    rw [hd, UInt8.ofNat_toNat]

lemma utf8Rest_zero {value w : ℕ} {p r : Bytes} : utf8Rest 0 value p = some (w, r) ↔
    value = w ∧ p = r := by
  rw [utf8Rest, Option.some.injEq, Prod.mk.injEq]

lemma eq_ofNat_iff {c : UInt8} {n : ℕ} (hn : n < 256) : c = UInt8.ofNat n ↔ c.toNat = n := by
  rw [← UInt8.toNat_inj, UInt8.toNat_ofNat_of_lt' hn]

/-- The first byte of a character of two, three or four bytes. -/
lemma utf8Lead_eq_some {c : UInt8} {value minimum remaining : ℕ} :
    utf8Lead c = some (value, minimum, remaining) ↔
      (c.toNat = value + 0xc0 ∧ 2 ≤ value ∧ value < 32 ∧ minimum = 0x80 ∧ remaining = 1) ∨
      (c.toNat = value + 0xe0 ∧ value < 16 ∧ minimum = 0x800 ∧ remaining = 2) ∨
      (c.toNat = value + 0xf0 ∧ value ≤ 4 ∧ minimum = 0x10000 ∧ remaining = 3) := by
  have h1 : (0xc2 ≤ c ∧ c ≤ 0xdf) ↔ 0xc2 ≤ c.toNat ∧ c.toNat ≤ 0xdf := Iff.rfl
  have h2 : (0xe0 ≤ c ∧ c ≤ 0xef) ↔ 0xe0 ≤ c.toNat ∧ c.toNat ≤ 0xef := Iff.rfl
  have h3 : (0xf0 ≤ c ∧ c ≤ 0xf4) ↔ 0xf0 ≤ c.toNat ∧ c.toNat ≤ 0xf4 := Iff.rfl
  simp only [utf8Lead, h1, h2, h3]
  split_ifs <;> simp only [Option.some.injEq, Prod.mk.injEq, false_iff] <;> omega

/-- A byte below 0x80 is a character of its own; otherwise the first byte announces the others. -/
lemma utf8Step_eq_some {c : UInt8} {p r : Bytes} : utf8Step c p = some r ↔
    (c < 0x80 ∧ p = r) ∨ (0x80 ≤ c ∧ ∃ value minimum remaining w,
      utf8Lead c = some (value, minimum, remaining) ∧ utf8Rest remaining value p = some (w, r) ∧
      minimum ≤ w ∧ (w < 0xd800 ∨ (0xdfff < w ∧ w < 0x110000))) := by
  rw [utf8Step]
  by_cases hc : c < 0x80
  · simp [hc]
  · rw [if_neg hc]
    constructor
    · intro h
      obtain ⟨⟨value, minimum, remaining⟩, hlead, h⟩ := Option.bind_eq_some_iff.1 h
      obtain ⟨⟨w, r'⟩, hrest, h⟩ := Option.bind_eq_some_iff.1 h
      obtain ⟨hw, hr⟩ := Option.ite_none_left_eq_some.1 h
      cases hr
      exact Or.inr ⟨UInt8.not_lt.1 hc, value, minimum, remaining, w, hlead, hrest, by omega,
        by omega⟩
    · rintro (⟨h, -⟩ | ⟨-, value, minimum, remaining, w, hlead, hrest, hmin, hw⟩)
      · exact absurd h hc
      · have hgood : ¬(w < minimum ∨ 0x10ffff < w ∨ (0xd800 ≤ w ∧ w ≤ 0xdfff)) := by omega
        simp only [hlead, hrest, Option.bind_eq_bind, Option.bind_some, if_neg hgood]

/-- The bytes that the first byte announces are those of one character. -/
lemma encode_of_rest {c : UInt8} {value minimum remaining w : ℕ} {p r : Bytes}
    (hlead : utf8Lead c = some (value, minimum, remaining))
    (hrest : utf8Rest remaining value p = some (w, r)) (hmin : minimum ≤ w)
    (hw : w < 0xd800 ∨ (0xdfff < w ∧ w < 0x110000)) :
    c :: p = String.utf8EncodeChar (Char.ofNat w) ++ r := by
  have hx := toNat_ofNat hw
  rcases utf8Lead_eq_some.1 hlead with ⟨hc, -, hvalue, rfl, rfl⟩ | ⟨hc, hvalue, rfl, rfl⟩ |
    ⟨hc, hvalue, rfl, rfl⟩
  · obtain ⟨a, p₁, ha, rfl, hend⟩ := utf8Rest_eq_some hrest
    obtain ⟨rfl, rfl⟩ := utf8Rest_zero.1 hend
    have h1 : (value * 64 + a) / 64 = value := by omega
    have h2 : (value * 64 + a) % 64 = a := by omega
    rw [utf8_two (by omega) (by omega), hx, h1, h2, (eq_ofNat_iff (by omega)).2 hc]
    rfl
  · obtain ⟨a, p₁, ha, rfl, h₁⟩ := utf8Rest_eq_some hrest
    obtain ⟨b, p₂, hb, rfl, hend⟩ := utf8Rest_eq_some h₁
    obtain ⟨rfl, rfl⟩ := utf8Rest_zero.1 hend
    have h1 : ((value * 64 + a) * 64 + b) / 4096 = value := by omega
    have h2 : ((value * 64 + a) * 64 + b) / 64 % 64 = a := by omega
    have h3 : ((value * 64 + a) * 64 + b) % 64 = b := by omega
    rw [utf8_three (by omega) (by omega), hx, h1, h2, h3, (eq_ofNat_iff (by omega)).2 hc]
    rfl
  · obtain ⟨a, p₁, ha, rfl, h₁⟩ := utf8Rest_eq_some hrest
    obtain ⟨b, p₂, hb, rfl, h₂⟩ := utf8Rest_eq_some h₁
    obtain ⟨d, p₃, hd, rfl, hend⟩ := utf8Rest_eq_some h₂
    obtain ⟨rfl, rfl⟩ := utf8Rest_zero.1 hend
    have h1 : (((value * 64 + a) * 64 + b) * 64 + d) / 262144 = value := by omega
    have h2 : (((value * 64 + a) * 64 + b) * 64 + d) / 4096 % 64 = a := by omega
    have h3 : (((value * 64 + a) * 64 + b) * 64 + d) / 64 % 64 = b := by omega
    have h4 : (((value * 64 + a) * 64 + b) * 64 + d) % 64 = d := by omega
    rw [utf8_four (by omega), hx, h1, h2, h3, h4, (eq_ofNat_iff (by omega)).2 hc]
    rfl

/-- The first byte of a character announces the others. -/
lemma rest_of_encode {x : Char} (hx : 0x80 ≤ x.toNat) (r : Bytes) :
    ∃ c p value minimum remaining, String.utf8EncodeChar x ++ r = c :: p ∧ 0x80 ≤ c ∧
      utf8Lead c = some (value, minimum, remaining) ∧
      utf8Rest remaining value p = some (x.toNat, r) ∧ minimum ≤ x.toNat := by
  have hvalid := toNat_valid x
  have hnat : ∀ {n}, n < 256 → (UInt8.ofNat n).toNat = n := fun hn => UInt8.toNat_ofNat_of_lt' hn
  have hlong : ∀ {n}, 0x80 ≤ n → n < 256 → 0x80 ≤ UInt8.ofNat n := by
    intro n hn hlt
    rw [UInt8.le_iff_toNat_le, hnat hlt]
    exact hn
  by_cases h2 : x.toNat < 0x800
  · rw [utf8_two hx h2, List.cons_append, List.cons_append, List.nil_append]
    refine ⟨_, _, x.toNat / 64, 0x80, 1, rfl, hlong (by omega) (by omega),
      utf8Lead_eq_some.2 (Or.inl ⟨hnat (by omega), by omega, by omega, rfl, rfl⟩), ?_, hx⟩
    rw [utf8Rest_cons (by omega), utf8Rest_zero]
    exact ⟨by omega, rfl⟩
  by_cases h3 : x.toNat < 0x10000
  · rw [utf8_three (Nat.not_lt.1 h2) h3, List.cons_append, List.cons_append, List.cons_append,
      List.nil_append]
    refine ⟨_, _, x.toNat / 4096, 0x800, 2, rfl, hlong (by omega) (by omega),
      utf8Lead_eq_some.2 (Or.inr (Or.inl ⟨hnat (by omega), by omega, rfl, rfl⟩)), ?_, by omega⟩
    rw [utf8Rest_cons (by omega), utf8Rest_cons (by omega), utf8Rest_zero]
    exact ⟨by omega, rfl⟩
  · rw [utf8_four (Nat.not_lt.1 h3), List.cons_append, List.cons_append, List.cons_append,
      List.cons_append, List.nil_append]
    refine ⟨_, _, x.toNat / 262144, 0x10000, 3, rfl, hlong (by omega) (by omega),
      utf8Lead_eq_some.2 (Or.inr (Or.inr ⟨hnat (by omega), by omega, rfl, rfl⟩)), ?_, by omega⟩
    rw [utf8Rest_cons (by omega), utf8Rest_cons (by omega), utf8Rest_cons (by omega), utf8Rest_zero]
    exact ⟨by omega, rfl⟩

/-- **One character** is passed over. -/
lemma utf8Step_iff {c : UInt8} {p r : Bytes} :
    utf8Step c p = some r ↔ ∃ x : Char, c :: p = String.utf8EncodeChar x ++ r := by
  rw [utf8Step_eq_some]
  constructor
  · rintro (⟨hc, rfl⟩ | ⟨-, value, minimum, remaining, w, hlead, hrest, hmin, hw⟩)
    · have hlt : c.toNat < 0x80 := UInt8.lt_iff_toNat_lt.1 hc
      have hx : (Char.ofNat c.toNat).toNat = c.toNat := toNat_ofNat (Or.inl (by omega))
      refine ⟨Char.ofNat c.toNat, ?_⟩
      rw [utf8_ascii (hx.trans_lt hlt), hx, UInt8.ofNat_toNat]
      rfl
    · exact ⟨Char.ofNat w, encode_of_rest hlead hrest hmin hw⟩
  · rintro ⟨x, hx⟩
    by_cases hascii : x.toNat < 0x80
    · rw [utf8_ascii hascii] at hx
      obtain ⟨rfl, rfl⟩ := List.cons.inj hx
      refine Or.inl ⟨?_, rfl⟩
      rw [UInt8.lt_iff_toNat_lt, UInt8.toNat_ofNat_of_lt' (hascii.trans (by decide))]
      exact hascii
    · obtain ⟨c', p', value, minimum, remaining, hcons, hlong, hlead, hrest, hmin⟩ :=
        rest_of_encode (Nat.not_lt.1 hascii) r
      obtain ⟨rfl, rfl⟩ := List.cons.inj (hx.trans hcons)
      exact Or.inr ⟨hlong, value, minimum, remaining, x.toNat, hlead, hrest, hmin, toNat_valid x⟩

/-- **`json_utf8` accepts the well-formed texts.** -/
theorem jsonUtf8_iff (text : Bytes) : jsonUtf8 text = true ↔ WellFormed text := by
  have hrun : ∀ fuel text, text.length ≤ fuel → (utf8From fuel text = true ↔ WellFormed text) := by
    intro fuel
    induction fuel with
    | zero =>
      intro text hlen
      obtain rfl := List.eq_nil_of_length_eq_zero (Nat.le_zero.1 hlen)
      exact iff_of_true rfl ⟨[], rfl⟩
    | succ fuel ih =>
      intro text hlen
      cases text with
      | nil => exact iff_of_true rfl ⟨[], rfl⟩
      | cons c p =>
        rw [utf8From]
        constructor
        · intro h
          cases hstep : utf8Step c p with
          | none =>
            rw [hstep] at h
            cases h
          | some r =>
            obtain ⟨x, hx⟩ := utf8Step_iff.1 hstep
            have hshort : r.length ≤ fuel := by
              have hlength := congrArg List.length hx
              have hpos := List.length_pos_of_ne_nil (@String.utf8EncodeChar_ne_nil x)
              rw [List.length_append] at hlength
              omega
            rw [hstep] at h
            obtain ⟨l, rfl⟩ := (ih r hshort).1 h
            exact ⟨x :: l, by rw [utf8_cons, hx]⟩
        · rintro ⟨l, hl⟩
          cases l with
          | nil => cases hl
          | cons x l =>
            rw [utf8_cons] at hl
            have hshort : (utf8 l).length ≤ fuel := by
              have hlength := congrArg List.length hl
              have hpos := List.length_pos_of_ne_nil (@String.utf8EncodeChar_ne_nil x)
              rw [List.length_append] at hlength
              omega
            rw [utf8Step_iff.2 ⟨x, hl⟩]
            exact (ih _ hshort).2 ⟨l, rfl⟩
  exact hrun _ text le_rfl

/-! ### Both sides -/

/-- Into a buffer of no bytes only the empty string is read. -/
lemma readUnits_no_room {output : Bool} {fuel : ℕ} {p out rest : Bytes}
    (h : readUnits output 0 fuel 0 p = some (out, rest)) :
    cur p = ch '"' ∧ out = [] ∧ rest = p.tail := by
  cases fuel with
  | zero => cases h
  | succ fuel =>
    rw [readUnits] at h
    obtain ⟨-, h⟩ := Option.ite_none_left_eq_some.1 h
    by_cases hquote : cur p = ch '"'
    · rw [if_pos hquote] at h
      obtain ⟨rfl, rfl⟩ := Prod.mk.inj (Option.some.inj h)
      exact ⟨hquote, rfl, rfl⟩
    · rw [if_neg hquote] at h
      obtain ⟨⟨bytes, p'⟩, -, h⟩ := Option.bind_eq_some_iff.1 h
      exact absurd (Nat.zero_le _) (Option.ite_none_left_eq_some.1 h).1

/-- A token is put out as the encoding of its code points. -/
lemma readString_points {output : Bool} {size : ℕ} {w b q out rest : Bytes} (hw : Whitespace w)
    (hread : readString output size (w ++ (ch '"' :: b ++ [ch '"'] ++ q)) = some (out, rest))
    {l : List Char} (hl : Points b l) : rest = q ∧ out = utf8 l := by
  rcases Nat.eq_zero_or_pos size with rfl | hsize
  · have hs : ch '"' :: b ++ [ch '"'] ++ q = ch '"' :: (b ++ ch '"' :: q) := by simp
    rw [hs, readString, jsonSpace_append hw (lead_cons _ (by decide)), cur_cons, List.tail_cons,
      if_neg (not_not_intro rfl)] at hread
    obtain ⟨hcur, rfl, rfl⟩ := readUnits_no_room hread
    have hspells := hl.spells
    generalize utf8 l = y at hspells ⊢
    cases hspells with
    | nil => exact ⟨rfl, rfl⟩
    | cons ha hb =>
      obtain ⟨c, a, rfl, -, hq⟩ := ha.character.exists_cons
      exact absurd hcur hq
  · have hstring : StringIs (ch '"' :: b ++ [ch '"']) (utf8 l) := ⟨b, hl.spells, rfl⟩
    rw [readString_stringIs output hsize hw hstring q] at hread
    obtain ⟨-, hread⟩ := Option.ite_none_left_eq_some.1 hread
    obtain ⟨rfl, rfl⟩ := Prod.mk.inj (Option.some.inj hread)
    exact ⟨rfl, rfl⟩

/-- **UTF-8 is exact on both sides**: the validator accepts the encodings of texts and nothing else,
and of a token that is such an encoding the reader puts out the encoding of its code points. -/
theorem utf8_exact : (∀ text, jsonUtf8 text = true ↔ WellFormed text) ∧
    ∀ {output : Bool} {size : ℕ} {w s q out rest : Bytes}, Whitespace w → IsString s →
      WellFormed s → readString output size (w ++ (s ++ q)) = some (out, rest) →
      rest = q ∧ WellFormed out ∧
        ∃ b, s = ch '"' :: b ++ [ch '"'] ∧ (∃ l, Points b l) ∧ ∀ l, Points b l → out = utf8 l := by
  refine ⟨jsonUtf8_iff, ?_⟩
  rintro output size w s q out rest hw ⟨b, hb, rfl⟩ ⟨l₀, hl₀⟩ hread
  have hbody : WellFormed b := by
    obtain ⟨-, l₁, -, hl₁⟩ := utf8_eq_append_cons (a := []) (by decide : ch '"' < 0x80) hl₀.symm
    obtain ⟨l₂, -, hl₂, -⟩ := utf8_eq_append_cons (by decide : ch '"' < 0x80) hl₁
    exact ⟨l₂, hl₂.symm⟩
  obtain ⟨l, hl⟩ := hb.exists_points hbody
  obtain ⟨hrest, hout⟩ := readString_points hw hread hl
  exact ⟨hrest, ⟨l, hout⟩, b, rfl, ⟨l, hl⟩, fun l' hl' => (readString_points hw hread hl').2⟩

/-- A raw `é`, an escaped one and a surrogate pair. -/
theorem utf8_exact_sample : ∃ out, readString true 16 (str "\"é\\u00e9\\ud83d\\ude00\",") =
    some (out, str ",") ∧ out = utf8 ['é', 'é', '😀'] := by
  have hpair : Points (str "\\ud83d\\ude00" ++ []) ['😀'] :=
    @Points.pair (str "d83d") (str "de00") [] 0xd83d 0xde00 [] rfl ⟨[13, 8, 3, 13], rfl, rfl⟩
      (by decide) rfl ⟨[13, 14, 0, 0], rfl, rfl⟩ (by decide) .nil
  have hunit : Points (str "\\u00e9" ++ str "\\ud83d\\ude00") ['é', '😀'] :=
    @Points.unicode (str "00e9") _ 0xe9 _ rfl ⟨[0, 0, 14, 9], rfl, rfl⟩ (.inl (by decide)) hpair
  have hpoints : Points (str "é\\u00e9\\ud83d\\ude00") ['é', 'é', '😀'] :=
    @Points.raw 'é' _ _ (by decide) (by decide) (by decide) hunit
  have hs : IsString (str "\"é\\u00e9\\ud83d\\ude00\"") := ⟨_, hpoints.spells.characters, rfl⟩
  have hutf : WellFormed (str "\"é\\u00e9\\ud83d\\ude00\"") :=
    ⟨"\"é\\u00e9\\ud83d\\ude00\"".toList, by decide⟩
  have hread : readString true 16 ([] ++ (str "\"é\\u00e9\\ud83d\\ude00\"" ++ str ",")) =
      some ([0xc3, 0xa9, 0xc3, 0xa9, 0xf0, 0x9f, 0x98, 0x80], str ",") := by decide
  obtain ⟨-, -, b, hb, -, hall⟩ := utf8_exact.2 (by simp [Whitespace]) hs hutf hread
  obtain rfl : str "é\\u00e9\\ud83d\\ude00" = b := by
    have hcons : str "\"é\\u00e9\\ud83d\\ude00\"" =
      ch '"' :: str "é\\u00e9\\ud83d\\ude00" ++ [ch '"'] := rfl
    exact List.cons_injective (List.append_cancel_right (hcons.symm.trans hb))
  exact ⟨_, hread, hall _ hpoints⟩

end Wpm.JsonOutput
