import Wpm.JsonLexical

/-!
What the helpers for values and fields read, by the grammar.

Each of them is local: what it makes of a part of the grammar does not depend on the text after that
part, and it stops right there.
-/

namespace Wpm.JsonInput

open Wpm.Lib.CString Wpm.Lib.Json

/-! ### The end of a value -/

/-- The bytes at which `wpm_json_value_end` does something outside a string. -/
def structural : Bytes := str "\"\x7b\x7d[],"

lemma valueEndFrom_plain {w : Bytes} (hw : ∀ c ∈ w, c ∉ structural) (r : Bytes) (d : ℕ) :
    valueEndFrom (w ++ r) d false = valueEndFrom r d false := by
  induction w with
  | nil => rfl
  | cons c w ih =>
    have hc := hw c List.mem_cons_self
    have hne : c ≠ ch '"' ∧ c ≠ ch '{' ∧ c ≠ ch '[' ∧ c ≠ ch '}' ∧ c ≠ ch ']' ∧ c ≠ ch ',' := by
      refine ⟨?_, ?_, ?_, ?_, ?_, ?_⟩ <;> rintro rfl <;> exact hc (by decide)
    have ih := ih fun d hd => hw d (List.mem_cons_of_mem c hd)
    simpa only [List.cons_append, valueEndFrom, hne, or_self, false_and, if_false] using ih

lemma valueEndFrom_unescaped {c : UInt8} (h : c ≠ ch '\\') (r : Bytes) (d : ℕ) :
    valueEndFrom (c :: r) d true = valueEndFrom r d (c ≠ ch '"') := by
  cases r <;> simp only [valueEndFrom, if_neg h]

lemma valueEndFrom_quoted {w : Bytes} (hw : ∀ c ∈ w, c ≠ ch '\\' ∧ c ≠ ch '"') (r : Bytes) (d : ℕ) :
    valueEndFrom (w ++ r) d true = valueEndFrom r d true := by
  induction w with
  | nil => rfl
  | cons c w ih =>
    have hc := hw c List.mem_cons_self
    have ih := ih fun d hd => hw d (List.mem_cons_of_mem c hd)
    rw [List.cons_append, valueEndFrom_unescaped hc.1, decide_eq_true hc.2, ih]

lemma valueEndFrom_escape (c : UInt8) (r : Bytes) (d : ℕ) :
    valueEndFrom (ch '\\' :: c :: r) d true = valueEndFrom r d true := by
  rw [valueEndFrom, if_pos rfl]

lemma hex_unquoted {h : Bytes} {n : ℕ} (hh : Hex h n) : ∀ c ∈ h, c ≠ ch '\\' ∧ c ≠ ch '"' := by
  intro c hc
  obtain ⟨ds, hmap, -⟩ := hh
  have hsome : Lib.Json.hexValue c ∈ ds.map some := hmap ▸ List.mem_map_of_mem hc
  obtain ⟨d, -, hd⟩ := List.mem_map.1 hsome
  have hnone : Lib.Json.hexValue (ch '\\') = none ∧ Lib.Json.hexValue (ch '"') = none := by decide
  constructor
  · rintro rfl
    exact absurd (hd.trans hnone.1) (Option.some_ne_none d)
  · rintro rfl
    exact absurd (hd.trans hnone.2) (Option.some_ne_none d)

lemma valueEndFrom_character {a : Bytes} (h : Character a) (r : Bytes) (d : ℕ) :
    valueEndFrom (a ++ r) d true = valueEndFrom r d true := by
  cases h with
  | raw hc hq hb => exact valueEndFrom_quoted (by simp [hb, hq]) r d
  | escape hc => exact valueEndFrom_escape _ r d
  | unicode hl hh hn =>
    rw [List.cons_append, List.cons_append, valueEndFrom_escape]
    exact valueEndFrom_quoted (hex_unquoted hh) r d
  | @pair h l n m hhl hh hn hll hl hm =>
    rw [List.cons_append, List.cons_append, List.cons_append, List.cons_append, List.append_assoc,
      valueEndFrom_escape, valueEndFrom_quoted (hex_unquoted hh), List.cons_append, List.cons_append,
      valueEndFrom_escape]
    exact valueEndFrom_quoted (hex_unquoted hl) r d

lemma valueEndFrom_characters {b : Bytes} (h : Characters b) (r : Bytes) (d : ℕ) :
    valueEndFrom (b ++ r) d true = valueEndFrom r d true := by
  induction h with
  | nil => rfl
  | cons ha hb ih => rw [List.append_assoc, valueEndFrom_character ha, ih]

lemma valueEndFrom_string {s : Bytes} (h : IsString s) (r : Bytes) (d : ℕ) :
    valueEndFrom (s ++ r) d false = valueEndFrom r d false := by
  obtain ⟨b, hb, rfl⟩ := h
  rw [List.cons_append, List.cons_append, List.append_assoc, valueEndFrom, if_pos rfl,
    valueEndFrom_characters hb, List.singleton_append, valueEndFrom_unescaped (by decide),
    decide_eq_false (by simp)]

lemma valueEndFrom_whitespace {w : Bytes} (h : Whitespace w) (r : Bytes) (d : ℕ) :
    valueEndFrom (w ++ r) d false = valueEndFrom r d false := by
  refine valueEndFrom_plain (fun c hc hmem => ?_) r d
  have hall : ∀ c ∈ structural, isWhitespace c = false := by decide +kernel
  exact absurd (h c hc) (by simp [hall c hmem])

lemma valueEndFrom_open {c : UInt8} (h : c = ch '{' ∨ c = ch '[') (r : Bytes) (d : ℕ) :
    valueEndFrom (c :: r) d false = valueEndFrom r (d + 1) false := by
  have hq : c ≠ ch '"' := by rcases h with rfl | rfl <;> decide
  rw [valueEndFrom, if_neg hq, if_pos h]

lemma valueEndFrom_close {c : UInt8} (h : c = ch '}' ∨ c = ch ']') (r : Bytes) (d : ℕ) :
    valueEndFrom (c :: r) (d + 1) false = valueEndFrom r d false := by
  have hq : c ≠ ch '"' ∧ ¬(c = ch '{' ∨ c = ch '[') := by rcases h with rfl | rfl <;> decide
  rw [valueEndFrom, if_neg hq.1, if_neg hq.2, if_pos h, if_neg (Nat.succ_ne_zero d),
    Nat.add_sub_cancel]

lemma valueEndFrom_comma (r : Bytes) (d : ℕ) :
    valueEndFrom (ch ',' :: r) (d + 1) false = valueEndFrom r (d + 1) false := by
  rw [valueEndFrom, if_neg (by decide), if_neg (by decide), if_neg (by decide),
    if_neg (fun h => Nat.succ_ne_zero d h.2)]

/-- Texts with commas between them, inside brackets. -/
lemma valueEndFrom_closing {c : UInt8} (hc : c = ch '}' ∨ c = ch ']') {l : List Bytes}
    (h : ∀ a ∈ l, ∀ r d, valueEndFrom (a ++ r) (d + 1) false = valueEndFrom r (d + 1) false)
    (r : Bytes) (d : ℕ) : valueEndFrom (closing c l r) (d + 1) false = valueEndFrom r d false := by
  induction l with
  | nil => exact valueEndFrom_close hc r d
  | cons a l ih => rw [closing, valueEndFrom_comma, h a List.mem_cons_self,
      ih fun b hb => h b (List.mem_cons_of_mem a hb)]

lemma valueEndFrom_commas {c : UInt8} (hc : c = ch '}' ∨ c = ch ']') {l : List Bytes} (hne : l ≠ [])
    (h : ∀ a ∈ l, ∀ r d, valueEndFrom (a ++ r) (d + 1) false = valueEndFrom r (d + 1) false)
    (r : Bytes) (d : ℕ) :
    valueEndFrom (commas l ++ c :: r) (d + 1) false = valueEndFrom r d false := by
  cases l with
  | nil => exact absurd rfl hne
  | cons a l =>
    rw [commas_append, h a List.mem_cons_self]
    exact valueEndFrom_closing hc (fun b hb => h b (List.mem_cons_of_mem a hb)) r d

/-- **A value is passed over**, at any depth. -/
lemma valueEndFrom_value {v : Bytes} (h : Value v) (r : Bytes) (d : ℕ) :
    valueEndFrom (v ++ r) d false = valueEndFrom r d false := by
  have hplain : ∀ c : UInt8, (isDigit c = true ∨ c ∈ str "+-.eE") → c ∉ structural := by
    intro c hc hmem
    have hall : ∀ c ∈ structural, isDigit c = false ∧ c ∉ str "+-.eE" := by decide +kernel
    rcases hc with hc | hc
    · exact absurd hc (by simp [(hall c hmem).1])
    · exact (hall c hmem).2 hc
  induction h generalizing r d with
  | string h => exact valueEndFrom_string h r d
  | number h => exact valueEndFrom_plain (fun c hc => hplain c (h.mem hc)) r d
  | literal h =>
    refine valueEndFrom_plain ?_ r d
    rcases h with rfl | rfl | rfl <;> decide +kernel
  | emptyObject h =>
    rw [List.cons_append, List.cons_append, List.append_assoc, valueEndFrom_open (.inl rfl),
      valueEndFrom_whitespace h]
    exact valueEndFrom_close (.inl rfl) r d
  | emptyArray h =>
    rw [List.cons_append, List.cons_append, List.append_assoc, valueEndFrom_open (.inr rfl),
      valueEndFrom_whitespace h]
    exact valueEndFrom_close (.inr rfl) r d
  | @object ms hne hf hv ih =>
    rw [List.cons_append, List.cons_append, List.append_assoc, valueEndFrom_open (.inl rfl)]
    refine valueEndFrom_commas (.inl rfl) (by simpa using hne) ?_ r d
    intro a ha r d
    obtain ⟨m, hm, rfl⟩ := List.mem_map.1 ha
    have hframed := hf m hm
    have hcolon : ∀ r, valueEndFrom (ch ':' :: r) (d + 1) false = valueEndFrom r (d + 1) false :=
      fun r => @valueEndFrom_plain [ch ':'] (by decide +kernel) r (d + 1)
    simp only [Member.text, List.append_assoc, List.cons_append,
      valueEndFrom_whitespace hframed.before, valueEndFrom_string hframed.key,
      valueEndFrom_whitespace hframed.beforeColon, hcolon,
      valueEndFrom_whitespace hframed.afterColon, ih m hm, valueEndFrom_whitespace hframed.after]
  | @array es hne hf hv ih =>
    rw [List.cons_append, List.cons_append, List.append_assoc, valueEndFrom_open (.inr rfl)]
    refine valueEndFrom_commas (.inr rfl) (by simpa using hne) ?_ r d
    intro a ha r d
    obtain ⟨e, he, rfl⟩ := List.mem_map.1 ha
    have hframed := hf e he
    simp only [Element.text, List.append_assoc, valueEndFrom_whitespace hframed.before, ih e he,
      valueEndFrom_whitespace hframed.after]

/-- The bytes at which a value at the top ends. -/
def EndsValue (c : UInt8) : Prop := c = ch ',' ∨ c = ch '}' ∨ c = ch ']'

lemma valueEndFrom_stop {c : UInt8} (hc : EndsValue c) (q : Bytes) :
    valueEndFrom (c :: q) 0 false = (c :: q, 0, false) := by
  rcases hc with rfl | rfl | rfl <;>
    rw [valueEndFrom, if_neg (by decide), if_neg (by decide)]
  · rw [if_neg (by decide), if_pos (by decide)]
  · rw [if_pos (by decide), if_pos rfl]
  · rw [if_pos (by decide), if_pos rfl]

/-- **The end of a value** is at the comma or bracket after it. -/
lemma valueEnd_append {w v after q : Bytes} {c : UInt8} (hw : Whitespace w) (hv : Value v)
    (hafter : Whitespace after) (hc : EndsValue c) :
    valueEnd (w ++ (v ++ (after ++ c :: q))) = (c :: q, true) := by
  have hend : valueEndFrom (v ++ (after ++ c :: q)) 0 false = (c :: q, 0, false) := by
    rw [valueEndFrom_value hv, valueEndFrom_whitespace hafter, valueEndFrom_stop hc]
  simp only [valueEnd, jsonSpace_append hw hv.lead, hend, and_self, decide_true]

/-! ### Strings -/

/-- A character is read, or not, whatever the text after it. -/
lemma readUnit_append (output : Bool) {c : UInt8} {a : Bytes} (h : Character (c :: a)) :
    ∃ res : Option Bytes, ∀ q, readUnit output c (a ++ q) = res.map fun bytes => (bytes, q) := by
  have hctl : ¬ch '\\' < 0x20 := by decide
  have hescape : ∀ q, cur q = ch 'u' →
      readUnit output (ch '\\') q = readUnicode output q.tail := fun q hq => by
    rw [readUnit, if_neg hctl, if_pos rfl, if_pos hq]
  generalize hx : c :: a = x at h
  cases h with
  | raw hc hq hb =>
    obtain ⟨rfl, rfl⟩ := List.cons.inj hx
    refine ⟨some [c], fun q => ?_⟩
    rw [readUnit, if_neg (UInt8.not_lt.2 hc), if_neg hb]
    rfl
  | @escape d hd =>
    obtain ⟨rfl, rfl⟩ := List.cons.inj hx
    refine ⟨(simpleEscape d).map fun b => [b], fun q => ?_⟩
    have hu : cur ([d] ++ q) ≠ ch 'u' := by
      rintro (rfl : d = ch 'u')
      exact absurd hd (by decide)
    rw [readUnit, if_neg hctl, if_pos rfl, if_neg hu, Option.map_map]
    rfl
  | @unicode h n hl hh hn =>
    obtain ⟨rfl, rfl⟩ := List.cons.inj hx
    refine ⟨if n = 0 ∧ output then none else some (encodeCodepoint n), fun q => ?_⟩
    have hhex : jsonHex4 (h ++ q) = some (n, q) := jsonHex4_iff.2 ⟨_, hl, hh, rfl⟩
    have hscalar : ¬(0xd800 ≤ n ∧ n ≤ 0xdbff) ∧ ¬(0xdc00 ≤ n ∧ n ≤ 0xdfff) := by
      unfold IsScalar at hn
      omega
    rw [List.cons_append, hescape _ rfl, List.tail_cons]
    simp only [readUnicode, hhex, Option.bind_eq_bind, Option.bind_some, if_neg hscalar.1,
      if_neg hscalar.2]
    split_ifs <;> rfl
  | @pair h l n m hhl hh hn hll hl hm =>
    obtain ⟨rfl, rfl⟩ := List.cons.inj hx
    refine ⟨some (encodeCodepoint (0x10000 + (n - 0xd800) * 1024 + (m - 0xdc00))), fun q => ?_⟩
    have hhex : jsonHex4 (h ++ (ch '\\' :: ch 'u' :: l ++ q)) = some (n, ch '\\' :: ch 'u' :: (l ++ q)) :=
      jsonHex4_iff.2 ⟨_, hhl, hh, rfl⟩
    have hlow : jsonHex4 (l ++ q) = some (m, q) := jsonHex4_iff.2 ⟨_, hll, hl, rfl⟩
    have hzero : ¬(n = 0 ∧ output = true) := by
      unfold IsHigh at hn
      omega
    have hrange : ¬(m < 0xdc00 ∨ 0xdfff < m) := by
      unfold IsLow at hm
      omega
    have hhigh : 0xd800 ≤ n ∧ n ≤ 0xdbff := hn
    have hread : (ch 'u' :: h).append (ch '\\' :: ch 'u' :: l) ++ q =
        ch 'u' :: (h ++ (ch '\\' :: ch 'u' :: l ++ q)) := List.append_assoc ..
    rw [hread, hescape _ rfl, List.tail_cons]
    simp only [readUnicode, hhex, Option.bind_eq_bind, Option.bind_some, if_neg hzero, if_pos hhigh,
      cur_cons, List.tail_cons, ne_eq, not_true_eq_false, or_self, if_false, hlow, if_neg hrange]
    rfl

lemma readUnits_append (output : Bool) (size : ℕ) {b : Bytes} (h : Characters b) (n : ℕ) :
    ∃ res : Option Bytes, ∀ q fuel, b.length < fuel →
      readUnits output size fuel n (b ++ ch '"' :: q) = res.map fun bytes => (bytes, q) := by
  induction h generalizing n with
  | nil =>
    refine ⟨some [], fun q fuel hfuel => ?_⟩
    obtain ⟨fuel, rfl⟩ := Nat.exists_eq_succ_of_ne_zero hfuel.ne'
    rw [List.nil_append, readUnits, cur_cons, if_neg (by decide), if_pos rfl]
    rfl
  | @cons a b ha hb ih =>
    obtain ⟨c, a, rfl, h0, hq⟩ := ha.exists_cons
    obtain ⟨res, hres⟩ := readUnit_append output ha
    have hstep : ∀ q fuel, readUnits output size (fuel + 1) n (c :: a ++ b ++ ch '"' :: q) =
        (res.map fun bytes => (bytes, b ++ ch '"' :: q)).bind fun r =>
          if size ≤ n + r.1.length then none
          else (readUnits output size fuel (n + r.1.length) r.2).bind fun s =>
            some (r.1 ++ s.1, s.2) := by
      intro q fuel
      rw [List.cons_append, List.cons_append, readUnits, cur_cons, if_neg h0, if_neg hq,
        List.tail_cons, List.append_assoc, hres]
      rfl
    cases res with
    | none =>
      refine ⟨none, fun q fuel hfuel => ?_⟩
      obtain ⟨fuel, rfl⟩ := Nat.exists_eq_succ_of_ne_zero (Nat.ne_zero_of_lt hfuel)
      exact hstep q fuel
    | some bytes =>
      obtain ⟨more, hmore⟩ := ih (n + bytes.length)
      refine ⟨if size ≤ n + bytes.length then none else more.map (bytes ++ ·),
        fun q fuel hfuel => ?_⟩
      obtain ⟨fuel, rfl⟩ := Nat.exists_eq_succ_of_ne_zero (Nat.ne_zero_of_lt hfuel)
      have hlen : b.length < fuel := by
        rw [List.length_append, List.length_cons] at hfuel
        omega
      rw [hstep, Option.map_some, Option.bind_some, hmore q fuel hlen]
      split_ifs
      · rfl
      · cases more <;> rfl

/-- The text that a string stands for, if it fits a buffer of `size` bytes. -/
def stringOf (size : ℕ) (s : Bytes) : Option Bytes := (readString true size s).map Prod.fst

lemma readString_append' (output : Bool) (size : ℕ) {s : Bytes} (h : IsString s) :
    ∃ res : Option Bytes, ∀ w q, Whitespace w →
      readString output size (w ++ (s ++ q)) = res.map fun bytes => (bytes, q) := by
  obtain ⟨b, hb, rfl⟩ := id h
  obtain ⟨res, hres⟩ := readUnits_append output size hb 0
  refine ⟨res, fun w q hw => ?_⟩
  have hs : ch '"' :: b ++ [ch '"'] ++ q = ch '"' :: (b ++ ch '"' :: q) := by simp
  rw [readString, jsonSpace_append hw h.lead, hs]
  simp only [cur_cons, ne_eq, not_true_eq_false, if_false, List.tail_cons]
  refine hres q _ ?_
  rw [List.length_cons, List.length_append]
  omega

/-- **A string is read**, or does not fit, whatever the text after it. -/
lemma readString_append (size : ℕ) {w s : Bytes} (hw : Whitespace w) (h : IsString s) (q : Bytes) :
    readString true size (w ++ (s ++ q)) = (stringOf size s).map fun bytes => (bytes, q) := by
  obtain ⟨res, hres⟩ := readString_append' true size h
  have hself : readString true size s = res.map fun bytes => (bytes, []) := by
    simpa using hres [] [] (fun _ h => absurd h List.not_mem_nil)
  rw [hres w q hw, stringOf, hself, Option.map_map]
  cases res <;> rfl

/-- A value that is not a string has no text. -/
lemma readString_value (size : ℕ) {w v : Bytes} (hw : Whitespace w) (h : Value v) (q : Bytes) :
    readString true size (w ++ (v ++ q)) = (stringOf size v).map fun bytes => (bytes, q) := by
  by_cases hs : IsString v
  · exact readString_append size hw hs q
  · have hnone : ∀ q, cur (v ++ q) ≠ ch '"' := by
      intro q hq
      obtain ⟨c, v', rfl, -⟩ := h.exists_cons
      obtain rfl : c = ch '"' := hq
      exact hs h.isString
    have hv : readString true size v = none := by
      have hlead := @Value.lead v [] h
      rw [List.append_nil] at hlead
      have := hnone []
      rw [List.append_nil] at this
      rw [readString, jsonSpace_eq_self hlead, if_pos this]
    rw [readString, jsonSpace_append hw h.lead, if_pos (hnone q), stringOf, hv]
    rfl

/-- The name that a key stands for in a buffer of `size` bytes: a name that does not fit is empty. -/
def nameIn (size : ℕ) (k : Bytes) : Bytes := (stringOf size k).getD []

/-- The name that a key stands for: a name that does not fit the buffer is empty. -/
def keyOf (k : Bytes) : Bytes := (stringOf 32 k).getD []

lemma readKey_append (size : ℕ) {w k : Bytes} (hw : Whitespace w) (h : IsString k) {q : Bytes}
    (hsize : (k ++ q).length ≤ sizeMax) : readKey size (w ++ (k ++ q)) = some (nameIn size k, q) := by
  rw [readKey, readString_append size hw h, nameIn]
  cases stringOf size k with
  | some name => rfl
  | none =>
    obtain ⟨out, hout⟩ := (readString_iff h.lead hsize).2 ⟨k, h, rfl⟩
    have hskip : readString false sizeMax (w ++ (k ++ q)) = readString false sizeMax (k ++ q) := by
      rw [readString, readString, jsonSpace_append hw h.lead, jsonSpace_eq_self h.lead]
    rw [hskip, hout]
    rfl

/-! ### Buffers -/

/-- A buffer holds the strings that are shorter than it, and their terminator. -/
lemma readUnits_fits {size size' : ℕ} (hsize : size ≤ size') : ∀ {fuel n : ℕ} {p out rest : Bytes},
    n < size → (readUnits true size fuel n p = some (out, rest) ↔
      readUnits true size' fuel n p = some (out, rest) ∧ n + out.length < size)
  | 0, _, _, _, _, _ => by simp [readUnits]
  | fuel + 1, n, p, out, rest, hn => by
    rw [readUnits, readUnits]
    by_cases h0 : cur p = 0
    · simp [h0]
    by_cases hq : cur p = ch '"'
    · have hlen : ∀ {v : Bytes}, [] = v → n + v.length < size := by
        rintro v rfl
        simpa using hn
      simp only [if_neg h0, if_pos hq, Option.some.injEq, Prod.mk.injEq]
      exact ⟨fun h => ⟨h, hlen h.1⟩, fun h => h.1⟩
    simp only [if_neg h0, if_neg hq, Option.bind_eq_bind, Option.bind_eq_some_iff]
    constructor
    · rintro ⟨⟨bytes, p'⟩, hunit, h⟩
      obtain ⟨hfit, h⟩ := Option.ite_none_left_eq_some.1 h
      obtain ⟨⟨more, q⟩, hmore, h⟩ := Option.bind_eq_some_iff.1 h
      obtain ⟨rfl, rfl⟩ := Prod.mk.inj (Option.some.inj h)
      obtain ⟨hmore, hlen⟩ := (readUnits_fits hsize (not_le.1 hfit)).1 hmore
      simp only at hfit hlen hmore
      have hfit' : ¬size' ≤ n + bytes.length := by omega
      refine ⟨⟨_, hunit, ?_⟩, by simp only [List.length_append]; omega⟩
      simp only [if_neg hfit', hmore, Option.bind_some]
    · rintro ⟨⟨⟨bytes, p'⟩, hunit, h⟩, hlen⟩
      obtain ⟨-, h⟩ := Option.ite_none_left_eq_some.1 h
      obtain ⟨⟨more, q⟩, hmore, h⟩ := Option.bind_eq_some_iff.1 h
      obtain ⟨rfl, rfl⟩ := Prod.mk.inj (Option.some.inj h)
      simp only [List.length_append] at hlen hmore
      have hfit : ¬size ≤ n + bytes.length := by omega
      have hmore := (readUnits_fits hsize (not_le.1 hfit)).2 ⟨hmore, by omega⟩
      refine ⟨_, hunit, ?_⟩
      simp only [if_neg hfit, hmore, Option.bind_some]

/-- **What fits a buffer**: the strings whose text is shorter. -/
lemma stringOf_eq_some {size : ℕ} (h0 : 0 < size) (hsize : size ≤ sizeMax) {s out : Bytes} :
    stringOf size s = some out ↔ stringOf sizeMax s = some out ∧ out.length < size := by
  have hread : ∀ rest, readString true size s = some (out, rest) ↔
      readString true sizeMax s = some (out, rest) ∧ out.length < size := by
    intro rest
    unfold readString
    by_cases hq : cur (jsonSpace s) = ch '"'
    · simp only [hq, ne_eq, not_true_eq_false, if_false]
      rw [readUnits_fits hsize h0, Nat.zero_add]
    · simp [hq]
  simp only [stringOf, Option.map_eq_some_iff, Prod.exists, exists_and_right, exists_eq_right, hread]

/-- A name that fits the buffer. -/
lemma nameIn_eq_iff {size : ℕ} (hsize : size ≤ sizeMax) {key k : Bytes} (hne : key ≠ [])
    (hlen : key.length < size) : nameIn size k = key ↔ stringOf sizeMax k = some key := by
  have hfits := fun out => @stringOf_eq_some size (Nat.zero_lt_of_lt hlen) hsize k out
  constructor
  · intro h
    cases hs : stringOf size k with
    | none =>
      rw [nameIn, hs, Option.getD_none] at h
      exact absurd h.symm hne
    | some out =>
      obtain rfl : out = key := by rwa [nameIn, hs] at h
      exact ((hfits out).1 hs).1
  · intro h
    rw [nameIn, (hfits key).2 ⟨h, hlen⟩, Option.getD_some]

/-- A name that fits the buffer of a key. -/
lemma keyOf_eq_iff {key k : Bytes} (hne : key ≠ []) (hlen : key.length < 32) :
    keyOf k = key ↔ stringOf sizeMax k = some key := nameIn_eq_iff (by decide) hne hlen

/-! ### The members of an object -/

/-- **A key** is read up to the colon. -/
lemma readKey_member_in (size : ℕ) {m : Member} (hm : m.Framed) {r : Bytes}
    (hsize : (m.text ++ r).length ≤ sizeMax) : cur (jsonSpace (m.text ++ r)) = ch '"' ∧
    ∃ p, readKey size (jsonSpace (m.text ++ r)) = some (nameIn size m.key, p) ∧
      jsonSpace p = ch ':' :: (m.afterColon ++ (m.value ++ (m.after ++ r))) := by
  have htext : m.text ++ r = m.before ++ (m.key ++
      (m.beforeColon ++ ch ':' :: (m.afterColon ++ (m.value ++ (m.after ++ r))))) := by
    simp [Member.text]
  rw [htext, jsonSpace_append hm.before hm.key.lead]
  refine ⟨?_, _, @readKey_append size [] _ (fun c hc => absurd hc List.not_mem_nil) hm.key _ ?_, ?_⟩
  · obtain ⟨b, -, hb⟩ := hm.key
    rw [hb]
    rfl
  · rw [htext, List.length_append] at hsize
    omega
  · exact jsonSpace_append hm.beforeColon (lead_cons _ (by decide))

lemma readKey_member {m : Member} (hm : m.Framed) {r : Bytes}
    (hsize : (m.text ++ r).length ≤ sizeMax) : cur (jsonSpace (m.text ++ r)) = ch '"' ∧
    ∃ p, readKey 32 (jsonSpace (m.text ++ r)) = some (keyOf m.key, p) ∧
      jsonSpace p = ch ':' :: (m.afterColon ++ (m.value ++ (m.after ++ r))) :=
  readKey_member_in 32 hm hsize

/-- What comes after the values in an object or an array. -/
lemma closing_eq {b : UInt8} (hb : b = ch '}' ∨ b = ch ']') (l : List Bytes) (q : Bytes) :
    ∃ c r, closing b l q = c :: r ∧ EndsValue c := by
  cases l with
  | nil => exact ⟨_, _, rfl, .inr hb⟩
  | cons a l => exact ⟨_, _, rfl, .inl rfl⟩

lemma valueEnd_closing {b : UInt8} (hb : b = ch '}' ∨ b = ch ']') {w v after : Bytes}
    (hw : Whitespace w) (hv : Value v) (hafter : Whitespace after) (l : List Bytes) (q : Bytes) :
    valueEnd (w ++ (v ++ (after ++ closing b l q))) = (closing b l q, true) := by
  obtain ⟨c, r, hclosing, hc⟩ := closing_eq hb l q
  rw [hclosing]
  exact valueEnd_append hw hv hafter hc

/-- A whole member is passed over like a value. -/
lemma valueEnd_member {m : Member} (hm : m.Framed) (hv : Value m.value) (l : List Bytes)
    (q : Bytes) :
    valueEnd (m.text ++ closing (ch '}') l q) = (closing (ch '}') l q, true) := by
  obtain ⟨c, r, hclosing, hc⟩ := closing_eq (.inl rfl) l q
  have hcolon : ∀ r, valueEndFrom (ch ':' :: r) 0 false = valueEndFrom r 0 false :=
    fun r => @valueEndFrom_plain [ch ':'] (by decide +kernel) r 0
  have htext : m.text ++ c :: r = m.before ++ (m.key ++
      (m.beforeColon ++ ch ':' :: (m.afterColon ++ (m.value ++ (m.after ++ c :: r))))) := by
    simp [Member.text]
  have hend : valueEndFrom (m.key ++
      (m.beforeColon ++ ch ':' :: (m.afterColon ++ (m.value ++ (m.after ++ c :: r))))) 0 false =
      (c :: r, 0, false) := by
    rw [valueEndFrom_string hm.key, valueEndFrom_whitespace hm.beforeColon, hcolon,
      valueEndFrom_whitespace hm.afterColon, valueEndFrom_value hv, valueEndFrom_whitespace hm.after,
      valueEndFrom_stop hc]
  rw [hclosing, htext]
  simp only [valueEnd, jsonSpace_append hm.before hm.key.lead, hend, and_self, decide_true]

/-- **A field** is the value of the first member with its name. -/
lemma jsonFieldFrom_append {wanted : Bytes} {m : Member} {l' : List Member} {q : Bytes}
    (hm : keyOf m.key = wanted) : ∀ {l : List Member} {fuel : ℕ},
    (∀ m' ∈ l ++ m :: l', m'.Framed ∧ Value m'.value) → (∀ m' ∈ l, keyOf m'.key ≠ wanted) →
    (opened (ch '}') ((l ++ m :: l').map Member.text) q).length ≤ sizeMax → l.length < fuel →
    jsonFieldFrom wanted fuel (opened (ch '}') ((l ++ m :: l').map Member.text) q) =
      some (m.value ++ (m.after ++ closing (ch '}') (l'.map Member.text) q))
  | [], 0, _, _, _, hfuel => absurd hfuel (by simp)
  | [], fuel + 1, hms, _, hsize, _ => by
    obtain ⟨hframed, hv⟩ := hms m (by simp)
    obtain ⟨hcur, p, hkey, hcolon⟩ := readKey_member hframed hsize
    have hstop : ¬(ch '"' = 0 ∨ ch '"' = ch '}') := by decide
    rw [List.nil_append, List.map_cons, opened, jsonFieldFrom]
    simp only [hcur, if_neg hstop, hkey, Option.bind_eq_bind, Option.bind_some, hcolon, cur_cons,
      ne_eq, not_true_eq_false, if_false, List.tail_cons, if_pos hm]
    rw [jsonSpace_append hframed.afterColon hv.lead]
  | m' :: l, 0, _, _, _, hfuel => absurd hfuel (by simp)
  | m' :: l, fuel + 1, hms, hl, hsize, hfuel => by
    obtain ⟨hframed, hv⟩ := hms m' (by simp)
    change (m'.text ++ closing (ch '}') ((l ++ m :: l').map Member.text) q).length ≤ sizeMax at hsize
    obtain ⟨hcur, p, hkey, hcolon⟩ := readKey_member hframed hsize
    have hstop : ¬(ch '"' = 0 ∨ ch '"' = ch '}') := by decide
    obtain ⟨a, r, hcons⟩ : ∃ a r, (l ++ m :: l').map Member.text = a :: r := by
      cases l <;> exact ⟨_, _, rfl⟩
    have htail : (closing (ch '}') ((l ++ m :: l').map Member.text) q).tail =
        opened (ch '}') ((l ++ m :: l').map Member.text) q := by
      rw [hcons]
      rfl
    have hcomma : cur (closing (ch '}') ((l ++ m :: l').map Member.text) q) = ch ',' := by
      rw [hcons]
      rfl
    rw [List.cons_append, List.map_cons, opened, jsonFieldFrom]
    simp only [hcur, if_neg hstop, hkey, Option.bind_eq_bind, Option.bind_some, hcolon, cur_cons,
      ne_eq, not_true_eq_false, if_false, List.tail_cons, if_neg (hl m' (by simp))]
    have hend := @valueEnd_closing _ (.inl rfl) [] m'.value m'.after (fun c hc => absurd hc List.not_mem_nil) hv
      hframed.after ((l ++ m :: l').map Member.text) q
    rw [List.nil_append] at hend
    rw [jsonSpace_append hframed.afterColon hv.lead, hend,
      jsonSpace_eq_self (lead_closing (by decide) _ q), hcomma, htail]
    simp only [not_true_eq_false, if_false]
    refine jsonFieldFrom_append hm (fun m'' h => hms m'' (List.mem_cons_of_mem m' h))
      (fun m'' h => hl m'' (List.mem_cons_of_mem m' h)) ?_ (by simpa using hfuel)
    rw [hcons, closing, List.length_append, List.length_cons] at hsize
    rw [hcons, opened]
    omega

/-- There is no field that no member is named after. -/
lemma jsonFieldFrom_eq_none {wanted q : Bytes} : ∀ {l : List Member} {fuel : ℕ},
    (∀ m ∈ l, m.Framed ∧ Value m.value) → (∀ m ∈ l, keyOf m.key ≠ wanted) →
    (opened (ch '}') (l.map Member.text) q).length ≤ sizeMax →
    jsonFieldFrom wanted fuel (opened (ch '}') (l.map Member.text) q) = none
  | _, 0, _, _, _ => rfl
  | [], fuel + 1, _, _, _ => by
    have hlead : Lead (ch '}' :: q) := lead_cons _ (by decide)
    rw [List.map_nil, opened, jsonFieldFrom, jsonSpace_eq_self hlead]
    exact if_pos (.inr rfl)
  | m :: l, fuel + 1, hms, hl, hsize => by
    obtain ⟨hframed, hv⟩ := hms m (by simp)
    change (m.text ++ closing (ch '}') (l.map Member.text) q).length ≤ sizeMax at hsize
    obtain ⟨hcur, p, hkey, hcolon⟩ := readKey_member hframed hsize
    have hstop : ¬(ch '"' = 0 ∨ ch '"' = ch '}') := by decide
    have hend := @valueEnd_closing _ (.inl rfl) [] m.value m.after
      (fun c hc => absurd hc List.not_mem_nil) hv hframed.after (l.map Member.text) q
    rw [List.map_cons, opened, jsonFieldFrom]
    simp only [hcur, if_neg hstop, hkey, Option.bind_eq_bind, Option.bind_some, hcolon, cur_cons,
      ne_eq, not_true_eq_false, if_false, List.tail_cons, if_neg (hl m (by simp))]
    rw [List.nil_append] at hend
    rw [jsonSpace_append hframed.afterColon hv.lead, hend,
      jsonSpace_eq_self (lead_closing (by decide) _ q)]
    cases l with
    | nil => exact if_pos (by rw [List.map_nil, closing, cur_cons]; decide)
    | cons m' l =>
      rw [List.map_cons, closing, List.length_append, List.length_cons] at hsize
      rw [List.map_cons, closing, cur_cons, if_neg (by decide), List.tail_cons]
      exact jsonFieldFrom_eq_none (fun m'' h => hms m'' (List.mem_cons_of_mem m h))
        (fun m'' h => hl m'' (List.mem_cons_of_mem m h)) (by rw [List.map_cons, opened]; omega)

end Wpm.JsonInput
