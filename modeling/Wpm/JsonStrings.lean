import Wpm.JsonFields
import Wpm.Lib.JsonString

/-!
What the string reader makes of a string: the bytes that it stands for.

A read fails for two reasons only: the buffer is too small, or a NUL would be put into it.
-/

namespace Wpm.JsonInput

open Wpm.Lib.CString Wpm.Lib.Json Wpm.Lib.Utf8

/-! ### One character -/

/-- The reader's encoding of a code point is UTF-8. -/
lemma encodeCodepoint_eq {n : ℕ} (h : n < 0xd800 ∨ (0xdfff < n ∧ n < 0x110000)) :
    encodeCodepoint n = String.utf8EncodeChar (Char.ofNat n) := by
  have hn : (Char.ofNat n).val.toNat = n := toNat_ofNat h
  rw [String.utf8EncodeChar, hn, encodeCodepoint]
  by_cases h1 : n < 0x80
  · rw [if_pos h1, if_pos (Nat.le_of_lt_succ h1)]
  · have h1' : ¬n ≤ 0x7f := by omega
    rw [if_neg h1, if_neg h1']
    by_cases h2 : n < 0x800
    · have hlead : 0xc0 + n / 64 = n / 64 % 0x20 + 0xc0 := by omega
      rw [if_pos h2, if_pos (Nat.le_of_lt_succ h2), hlead, Nat.add_comm 0x80]
    · have h2' : ¬n ≤ 0x7ff := by omega
      rw [if_neg h2, if_neg h2']
      by_cases h3 : n < 0x10000
      · have hlead : 0xe0 + n / 4096 = n / 4096 % 0x10 + 0xe0 := by omega
        rw [if_pos h3, if_pos (Nat.le_of_lt_succ h3), hlead, Nat.add_comm 0x80,
          Nat.add_comm 0x80 (n % 64)]
      · have h3' : ¬n ≤ 0xffff := by omega
        have hlead : 0xf0 + n / 262144 = n / 262144 % 0x08 + 0xf0 := by omega
        rw [if_neg h3, if_neg h3', hlead, Nat.add_comm 0x80, Nat.add_comm 0x80 (n / 64 % 64),
          Nat.add_comm 0x80 (n % 64)]

lemma zero_mem_utf8EncodeChar {c : Char} : 0 ∈ String.utf8EncodeChar c ↔ c.toNat = 0 := by
  by_cases h : c.toNat < 0x80
  · rw [utf8_ascii h, List.mem_singleton, ← UInt8.toNat_inj,
      UInt8.toNat_ofNat_of_lt' (h.trans (by decide))]
    exact eq_comm
  · refine iff_of_false (fun hmem => ?_) (fun h0 => h (h0 ▸ by decide))
    exact absurd (le_of_mem_utf8 (Nat.not_lt.1 h) hmem) (by decide)

lemma simpleEscape_of_mem {c b : UInt8} (h : (c, b) ∈ escapes) : simpleEscape c = some b := by
  have hall : ∀ e ∈ escapes, simpleEscape e.1 = some e.2 := forall_mem_of_all (by decide)
  exact hall (c, b) h

/-- A character is read, unless it is a NUL that would be put out. -/
lemma readUnit_decodes (output : Bool) {c : UInt8} {a x : Bytes} (h : Decodes (c :: a) x)
    (q : Bytes) : readUnit output c (a ++ q) =
      if output = true ∧ 0 ∈ x then none else some (x, q) := by
  have hctl : ¬ch '\\' < 0x20 := by decide
  generalize hy : c :: a = y at h
  cases h with
  | raw hc hq hb =>
    obtain ⟨rfl, rfl⟩ := List.cons.inj hy
    have hzero : ¬(output = true ∧ 0 ∈ [c]) := fun h => by
      rw [← List.mem_singleton.1 h.2] at hc
      exact absurd hc (by decide)
    rw [readUnit, if_neg (UInt8.not_lt.2 hc), if_neg hb, if_neg hzero]
    rfl
  | @escape d b hd =>
    obtain ⟨rfl, rfl⟩ := List.cons.inj hy
    have hall : ∀ e ∈ escapes, e.1 ≠ ch 'u' ∧ e.2 ≠ 0 := forall_mem_of_all (by decide)
    have hu : cur ([d] ++ q) ≠ ch 'u' := (hall (d, b) hd).1
    have hzero : ¬(output = true ∧ 0 ∈ [b]) := fun h =>
      (hall (d, b) hd).2 (List.mem_singleton.1 h.2).symm
    rw [readUnit, if_neg hctl, if_pos rfl, if_neg hu, if_neg hzero]
    exact congrArg _ (simpleEscape_of_mem hd)
  | @unicode h n hl hh hn =>
    obtain ⟨rfl, rfl⟩ := List.cons.inj hy
    have hlt := Hex.lt hh hl
    have hhex : jsonHex4 (h ++ q) = some (n, q) := jsonHex4_iff.2 ⟨_, hl, hh, rfl⟩
    have hpoint : n < 0xd800 ∨ (0xdfff < n ∧ n < 0x110000) := by
      unfold IsScalar at hn
      omega
    have hscalar : ¬(0xd800 ≤ n ∧ n ≤ 0xdbff) ∧ ¬(0xdc00 ≤ n ∧ n ≤ 0xdfff) := by
      unfold IsScalar at hn
      omega
    rw [List.cons_append, readUnit, if_neg hctl, if_pos rfl, cur_cons, if_pos rfl, List.tail_cons]
    simp only [readUnicode, hhex, Option.bind_eq_bind, Option.bind_some, if_neg hscalar.1,
      if_neg hscalar.2, encodeCodepoint_eq hpoint, zero_mem_utf8EncodeChar, toNat_ofNat hpoint,
      and_comm]
  | @pair h l n m hhl hh hn hll hl hm =>
    obtain ⟨rfl, rfl⟩ := List.cons.inj hy
    have hhex : jsonHex4 (h ++ (ch '\\' :: ch 'u' :: l ++ q)) = some (n, ch '\\' :: ch 'u' :: (l ++ q)) :=
      jsonHex4_iff.2 ⟨_, hhl, hh, rfl⟩
    have hlow : jsonHex4 (l ++ q) = some (m, q) := jsonHex4_iff.2 ⟨_, hll, hl, rfl⟩
    have hhigh : 0xd800 ≤ n ∧ n ≤ 0xdbff := hn
    have hpoint : 0xdfff < pairPoint n m ∧ pairPoint n m < 0x110000 := by
      unfold IsLow at hm
      unfold pairPoint
      omega
    have hzero : ¬(n = 0 ∧ output = true) := by omega
    have hrange : ¬(m < 0xdc00 ∨ 0xdfff < m) := by
      unfold IsLow at hm
      omega
    have hread : (ch 'u' :: h).append (ch '\\' :: ch 'u' :: l) ++ q =
        ch 'u' :: (h ++ (ch '\\' :: ch 'u' :: l ++ q)) := List.append_assoc ..
    have hchar : ¬(output = true ∧ 0 ∈ String.utf8EncodeChar (Char.ofNat (pairPoint n m))) := by
      rw [zero_mem_utf8EncodeChar, toNat_ofNat (.inr hpoint)]
      omega
    rw [hread, readUnit, if_neg hctl, if_pos rfl, cur_cons, if_pos rfl, List.tail_cons,
      if_neg hchar, ← encodeCodepoint_eq (.inr hpoint)]
    simp only [readUnicode, hhex, Option.bind_eq_bind, Option.bind_some, if_neg hzero, if_pos hhigh,
      cur_cons, List.tail_cons, ne_eq, not_true_eq_false, or_self, if_false, hlow, if_neg hrange]
    rfl

/-! ### Strings -/

/-- **The characters of a string are read**, unless a NUL would be put out or the buffer is too
small. -/
lemma readUnits_spells (output : Bool) (size : ℕ) {b out : Bytes} (h : Spells b out) {n : ℕ}
    (hn : n < size) (q : Bytes) {fuel : ℕ} (hfuel : b.length < fuel) :
    readUnits output size fuel n (b ++ ch '"' :: q) =
      if (output = true ∧ 0 ∈ out) ∨ size ≤ n + out.length then none else some (out, q) := by
  induction h generalizing n fuel with
  | nil =>
    obtain ⟨fuel, rfl⟩ := Nat.exists_eq_succ_of_ne_zero hfuel.ne'
    have hfits : ¬((output = true ∧ (0 : UInt8) ∈ []) ∨ size ≤ n + ([] : Bytes).length) := by
      simpa using hn
    rw [List.nil_append, readUnits, cur_cons, if_neg (by decide), if_pos rfl, if_neg hfits]
    rfl
  | @cons a b x y ha hb ih =>
    obtain ⟨fuel, rfl⟩ := Nat.exists_eq_succ_of_ne_zero (Nat.ne_zero_of_lt hfuel)
    obtain ⟨c, a, rfl, h0, hq⟩ := ha.character.exists_cons
    have hunit := readUnit_decodes output ha (b ++ ch '"' :: q)
    rw [List.cons_append, List.cons_append, readUnits, cur_cons, if_neg h0, if_neg hq,
      List.tail_cons, List.append_assoc, hunit]
    by_cases hzero : output = true ∧ 0 ∈ x
    · rw [if_pos hzero, if_pos (.inl ⟨hzero.1, List.mem_append_left y hzero.2⟩)]
      rfl
    · rw [if_neg hzero]
      by_cases hfits : size ≤ n + x.length
      · have hlong : size ≤ n + (x ++ y).length := by
          rw [List.length_append]
          omega
        rw [if_pos (.inr hlong)]
        exact if_pos hfits
      · have hlen : b.length < fuel := by
          rw [List.length_append, List.length_cons] at hfuel
          omega
        have hrest := @ih (n + x.length) (Nat.not_le.1 hfits) fuel hlen
        have hcond : (output = true ∧ 0 ∈ x ++ y) ∨ size ≤ n + (x ++ y).length ↔
            (output = true ∧ 0 ∈ y) ∨ size ≤ n + x.length + y.length := by
          rw [List.length_append, List.mem_append, ← Nat.add_assoc]
          tauto
        simp only [Option.bind_eq_bind, Option.bind_some, if_neg hfits, hrest, hcond]
        split_ifs <;> rfl

/-- **A string is read** as the bytes that it stands for, whatever the text after it. -/
theorem readString_stringIs (output : Bool) {size : ℕ} (hsize : 0 < size) {w s out : Bytes}
    (hw : Whitespace w) (h : StringIs s out) (q : Bytes) :
    readString output size (w ++ (s ++ q)) =
      if (output = true ∧ 0 ∈ out) ∨ size ≤ out.length then none else some (out, q) := by
  obtain ⟨b, hb, rfl⟩ := h
  have hs : ch '"' :: b ++ [ch '"'] ++ q = ch '"' :: (b ++ ch '"' :: q) := by simp
  rw [hs, readString, jsonSpace_append hw (lead_cons _ (by decide))]
  simp only [cur_cons, ne_eq, not_true_eq_false, if_false, List.tail_cons]
  rw [readUnits_spells output size hb hsize q, Nat.zero_add]
  rw [List.length_cons, List.length_append]
  omega

lemma exists_stringIs {s : Bytes} (h : IsString s) : ∃ out, StringIs s out := by
  obtain ⟨b, hb, rfl⟩ := h
  obtain ⟨out, hout⟩ := hb.exists_spells
  exact ⟨out, b, hout, rfl⟩

lemma StringIs.isString {s out : Bytes} (h : StringIs s out) : IsString s := by
  obtain ⟨b, hb, rfl⟩ := h
  exact ⟨b, hb.characters, rfl⟩

/-- A string stands for one text only. -/
lemma stringIs_unique {s x y : Bytes} (hx : StringIs s x) (hy : StringIs s y) : x = y := by
  have hpos : 0 < x.length + y.length + 1 := Nat.succ_pos _
  have hread : ∀ {z}, StringIs s z → z.length < x.length + y.length + 1 →
      readString false (x.length + y.length + 1) s = some (z, []) := by
    intro z hz hlt
    have h := readString_stringIs false hpos (fun _ h => absurd h List.not_mem_nil) hz []
    rw [List.nil_append, List.append_nil] at h
    rw [h, if_neg (by simpa using hlt)]
  have hxy := (hread hx (by omega)).symm.trans (hread hy (by omega))
  exact congrArg Prod.fst (Option.some.inj hxy)

/-- **What a buffer can hold** of a string: the text that it stands for, without a NUL. -/
theorem stringOf_iff {size : ℕ} (hsize : 0 < size) {s out : Bytes} (h : IsString s) :
    stringOf size s = some out ↔ StringIs s out ∧ 0 ∉ out ∧ out.length < size := by
  obtain ⟨text, htext⟩ := exists_stringIs h
  have hread := readString_stringIs true hsize (fun _ h => absurd h List.not_mem_nil) htext []
  rw [List.nil_append, List.append_nil] at hread
  rw [stringOf, hread]
  constructor
  · intro heq
    obtain ⟨r, hr, rfl⟩ := Option.map_eq_some_iff.1 heq
    obtain ⟨hfits, hr⟩ := Option.ite_none_left_eq_some.1 hr
    rw [not_or, not_and, Nat.not_le] at hfits
    rw [← Option.some.inj hr]
    exact ⟨htext, hfits.1 rfl, hfits.2⟩
  · rintro ⟨hout, hzero, hlength⟩
    obtain rfl := stringIs_unique hout htext
    have hfits : ¬((true = true ∧ 0 ∈ out) ∨ size ≤ out.length) := by
      rw [not_or, not_and, Nat.not_le]
      exact ⟨fun _ => hzero, hlength⟩
    rw [if_neg hfits]
    rfl

end Wpm.JsonInput
