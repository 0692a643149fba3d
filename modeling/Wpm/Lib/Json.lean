import Wpm.Lib.CString
import Mathlib.Data.List.Forall2

/-!
The grammar of JSON, RFC 8259, over bytes.

A text outside the quotes and escapes of strings is any run of bytes: UTF-8 is not checked. Objects
and arrays are the lists of their members, each with the white space around it, and the last section
cuts them at the first member.
-/

namespace Wpm.Lib.Json

open Wpm.Lib.CString

/-! ### White space -/

def isWhitespace (c : UInt8) : Bool := c = 0x20 || c = 0x09 || c = 0x0a || c = 0x0d

def Whitespace (w : Bytes) : Prop := ∀ c ∈ w, isWhitespace c = true

/-- The text does not start with white space. -/
def Lead (x : Bytes) : Prop := ∀ c ∈ x.head?, isWhitespace c = false

/-- White space in front of a text that does not start with any is cut off at one place. -/
lemma dropWhile_whitespace {w x : Bytes} (hw : Whitespace w) (hx : Lead x) :
    (w ++ x).dropWhile isWhitespace = x := by
  rw [List.dropWhile_append_of_pos hw]
  cases x with
  | nil => rfl
  | cons c x => exact List.dropWhile_cons_of_neg (by simpa using hx c rfl)

lemma lead_dropWhile (p : Bytes) : Lead (p.dropWhile isWhitespace) := by
  intro c hc
  have hhead := List.head?_dropWhile_not isWhitespace p
  rw [Option.mem_def.1 hc] at hhead
  exact hhead

lemma whitespace_takeWhile (p : Bytes) : Whitespace (p.takeWhile isWhitespace) :=
  fun _ hc => List.mem_takeWhile_imp hc

lemma lead_cons {c : UInt8} (p : Bytes) (h : isWhitespace c = false) : Lead (c :: p) := by
  intro d hd
  obtain rfl := Option.some.inj hd
  exact h

/-! ### Strings -/

/-- A hexadecimal digit, in either case, and its value. -/
def hexValue (c : UInt8) : Option ℕ := (str "0123456789abcdef").idxOf? (lower c)

/-- Hexadecimal digits and the number they write. -/
def Hex (h : Bytes) (n : ℕ) : Prop :=
  ∃ ds : List ℕ, h.map hexValue = ds.map some ∧ n = ds.foldl (fun n d => n * 16 + d) 0

/-- A code unit that is no half of a surrogate pair. -/
def IsScalar (n : ℕ) : Prop := n < 0xd800 ∨ 0xdfff < n

def IsHigh (n : ℕ) : Prop := 0xd800 ≤ n ∧ n ≤ 0xdbff

def IsLow (n : ℕ) : Prop := 0xdc00 ≤ n ∧ n ≤ 0xdfff

instance (n : ℕ) : Decidable (IsHigh n) := inferInstanceAs (Decidable (_ ∧ _))

instance (n : ℕ) : Decidable (IsLow n) := inferInstanceAs (Decidable (_ ∧ _))

/-- A character of a string. -/
inductive Character : Bytes → Prop
  | raw {c : UInt8} (hc : 0x20 ≤ c) (hq : c ≠ ch '"') (hb : c ≠ ch '\\') : Character [c]
  | escape {c : UInt8} (hc : c ∈ str "\"\\/bfnrt") : Character [ch '\\', c]
  | unicode {h : Bytes} {n : ℕ} (hl : h.length = 4) (hh : Hex h n) (hn : IsScalar n) :
    Character (ch '\\' :: ch 'u' :: h)
  | pair {h l : Bytes} {n m : ℕ} (hhl : h.length = 4) (hh : Hex h n) (hn : IsHigh n)
    (hll : l.length = 4) (hl : Hex l m) (hm : IsLow m) :
    Character (ch '\\' :: ch 'u' :: h ++ ch '\\' :: ch 'u' :: l)

inductive Characters : Bytes → Prop
  | nil : Characters []
  | cons {a b : Bytes} (ha : Character a) (hb : Characters b) : Characters (a ++ b)

lemma Character.exists_cons {a : Bytes} (h : Character a) :
    ∃ c a', a = c :: a' ∧ c ≠ 0 ∧ c ≠ ch '"' := by
  cases h with
  | raw hc hq hb => exact ⟨_, [], rfl, fun h0 => absurd (h0 ▸ hc) (by decide), hq⟩
  | _ => exact ⟨ch '\\', _, rfl, by decide, by decide⟩

lemma Character.length_lt {a p q : Bytes} (h : Character a) (hp : p = a ++ q) :
    q.length < p.length := by
  obtain ⟨c, a', rfl, -⟩ := h.exists_cons
  rw [hp, List.length_append, List.length_cons]
  omega

/-- A string, between its quotes. -/
def IsString (s : Bytes) : Prop := ∃ b, Characters b ∧ s = ch '"' :: b ++ [ch '"']

/-! ### Numbers -/

/-- One digit or more. -/
def Digits1 (d : Bytes) : Prop := d ≠ [] ∧ ∀ c ∈ d, isDigit c = true

/-- An integer has no leading zero. -/
inductive Integer : Bytes → Prop
  | zero : Integer [ch '0']
  | digits {c : UInt8} {d : Bytes} (hc : isDigit c = true) (h0 : c ≠ ch '0')
    (hd : ∀ c ∈ d, isDigit c = true) : Integer (c :: d)

inductive Fraction : Bytes → Prop
  | none : Fraction []
  | some {d : Bytes} (hd : Digits1 d) : Fraction (ch '.' :: d)

inductive Exponent : Bytes → Prop
  | none : Exponent []
  | some {e : UInt8} {sign d : Bytes} (he : e = ch 'e' ∨ e = ch 'E')
    (hs : sign = [] ∨ sign = [ch '+'] ∨ sign = [ch '-']) (hd : Digits1 d) :
    Exponent (e :: sign ++ d)

def IsNumber (s : Bytes) : Prop := ∃ minus i f e, (minus = [] ∨ minus = [ch '-']) ∧ Integer i ∧
  Fraction f ∧ Exponent e ∧ s = minus ++ i ++ f ++ e

lemma IsNumber.exists_cons {s : Bytes} (h : IsNumber s) :
    ∃ c s', s = c :: s' ∧ (c = ch '-' ∨ isDigit c = true) := by
  obtain ⟨minus, i, f, e, hminus, hint, -, -, rfl⟩ := h
  rcases hminus with rfl | rfl
  · cases hint with
    | zero => exact ⟨ch '0', _, rfl, .inr (by decide)⟩
    | digits hc h0 hd => exact ⟨_, _, rfl, .inr hc⟩
  · exact ⟨ch '-', _, rfl, .inl rfl⟩

lemma IsNumber.mem {s : Bytes} (h : IsNumber s) {c : UInt8} (hc : c ∈ s) :
    isDigit c = true ∨ c ∈ str "+-.eE" := by
  obtain ⟨minus, i, f, e, hminus, hint, hfrac, hexp, rfl⟩ := h
  simp only [List.mem_append] at hc
  rcases hc with ((hc | hc) | hc) | hc
  · rcases hminus with rfl | rfl
    · exact absurd hc List.not_mem_nil
    · exact .inr (by rw [List.mem_singleton.1 hc]; decide)
  · cases hint with
    | zero => exact .inl (by rw [List.mem_singleton.1 hc]; decide)
    | digits hd h0 hds =>
      rcases List.mem_cons.1 hc with rfl | hc
      · exact .inl hd
      · exact .inl (hds c hc)
  · cases hfrac with
    | none => exact absurd hc List.not_mem_nil
    | some hd =>
      rcases List.mem_cons.1 hc with rfl | hc
      · exact .inr (by decide)
      · exact .inl (hd.2 c hc)
  · cases hexp with
    | none => exact absurd hc List.not_mem_nil
    | some he hs hd =>
      rw [List.cons_append, List.mem_cons, List.mem_append] at hc
      rcases hc with rfl | hc | hc
      · exact .inr (by rcases he with rfl | rfl <;> decide)
      · refine .inr ?_
        rcases hs with rfl | rfl | rfl
        · exact absurd hc List.not_mem_nil
        · rw [List.mem_singleton.1 hc]; decide
        · rw [List.mem_singleton.1 hc]; decide
      · exact .inl (hd.2 c hc)

/-! ### Values -/

/-- A member of an object as it stands in the text. -/
structure Member where
  before : Bytes
  key : Bytes
  beforeColon : Bytes
  afterColon : Bytes
  value : Bytes
  after : Bytes

def Member.text (m : Member) : Bytes :=
  m.before ++ m.key ++ m.beforeColon ++ ch ':' :: m.afterColon ++ m.value ++ m.after

/-- An element of an array as it stands in the text. -/
structure Element where
  before : Bytes
  value : Bytes
  after : Bytes

def Element.text (e : Element) : Bytes := e.before ++ e.value ++ e.after

/-- Everything but the value. -/
structure Member.Framed (m : Member) : Prop where
  before : Whitespace m.before
  key : IsString m.key
  beforeColon : Whitespace m.beforeColon
  afterColon : Whitespace m.afterColon
  after : Whitespace m.after

structure Element.Framed (e : Element) : Prop where
  before : Whitespace e.before
  after : Whitespace e.after

/-- Texts with commas between them. -/
def commas (l : List Bytes) : Bytes := (str ",").intercalate l

lemma commas_singleton (a : Bytes) : commas [a] = a := by simp [commas]

lemma commas_cons (a : Bytes) {l : List Bytes} (h : l ≠ []) :
    commas (a :: l) = a ++ ch ',' :: commas l := by
  cases l with
  | nil => exact absurd rfl h
  | cons b l =>
    rw [commas, List.intercalate_cons_cons, List.append_assoc]
    rfl

/-- What follows the first of some texts with commas between them: the other texts, and the byte `c`
that closes the list. -/
def closing (c : UInt8) : List Bytes → Bytes → Bytes
  | [], q => c :: q
  | a :: l, q => ch ',' :: (a ++ closing c l q)

lemma commas_append (c : UInt8) (a : Bytes) (l : List Bytes) (q : Bytes) :
    commas (a :: l) ++ c :: q = a ++ closing c l q := by
  induction l generalizing a with
  | nil => rw [commas_singleton, closing]
  | cons b l ih => rw [commas_cons a (List.cons_ne_nil b l), List.append_assoc, List.cons_append, ih,
      closing]

lemma closing_append (c : UInt8) (l l' : List Bytes) (q : Bytes) :
    closing c (l ++ l') q = (l.flatMap fun a => ch ',' :: a) ++ closing c l' q := by
  induction l with
  | nil => rfl
  | cons a l ih => rw [List.cons_append, closing, ih, List.flatMap_cons, List.cons_append,
      List.cons_append, List.append_assoc]

lemma lead_closing {c : UInt8} (h : isWhitespace c = false) (l : List Bytes) (q : Bytes) :
    Lead (closing c l q) := by
  cases l with
  | nil => exact lead_cons _ h
  | cons a l => exact lead_cons _ (by decide)

inductive Value : Bytes → Prop
  | string {s : Bytes} (h : IsString s) : Value s
  | number {s : Bytes} (h : IsNumber s) : Value s
  | literal {s : Bytes} (h : s = str "true" ∨ s = str "false" ∨ s = str "null") : Value s
  | emptyObject {w : Bytes} (h : Whitespace w) : Value (ch '{' :: w ++ [ch '}'])
  | object {ms : List Member} (h : ms ≠ []) (hf : ∀ m ∈ ms, m.Framed)
    (hv : ∀ m ∈ ms, Value m.value) :
    Value (ch '{' :: commas (ms.map Member.text) ++ [ch '}'])
  | emptyArray {w : Bytes} (h : Whitespace w) : Value (ch '[' :: w ++ [ch ']'])
  | array {es : List Element} (h : es ≠ []) (hf : ∀ e ∈ es, e.Framed)
    (hv : ∀ e ∈ es, Value e.value) : Value (ch '[' :: commas (es.map Element.text) ++ [ch ']'])

lemma IsString.lead {k r : Bytes} (h : IsString k) : Lead (k ++ r) := by
  obtain ⟨b, -, rfl⟩ := h
  exact lead_cons _ (by decide)

/-- The bytes that a value can start with. -/
def valueStart : Bytes := str "\"-0123456789tfn[\x7b"

lemma Value.exists_cons {v : Bytes} (h : Value v) : ∃ c v', v = c :: v' ∧ c ∈ valueStart := by
  cases h with
  | string h =>
    obtain ⟨b, -, rfl⟩ := h
    exact ⟨_, _, rfl, by decide⟩
  | number h =>
    obtain ⟨c, s', rfl, hc⟩ := h.exists_cons
    refine ⟨c, s', rfl, ?_⟩
    rcases hc with rfl | hc
    · decide
    · have hall : ∀ n : Fin 256, isDigit (UInt8.ofFin n) = true → UInt8.ofFin n ∈ valueStart := by
        decide +kernel
      exact hall c.toFin hc
  | literal h => rcases h with rfl | rfl | rfl <;> exact ⟨_, _, rfl, by decide⟩
  | _ => exact ⟨_, _, rfl, by decide⟩

lemma Value.isString {v : Bytes} (h : Value (ch '"' :: v)) : IsString (ch '"' :: v) := by
  generalize hx : ch '"' :: v = x at h
  cases h with
  | string h => exact h
  | number h =>
    obtain ⟨c, s, rfl, hc⟩ := h.exists_cons
    obtain rfl := (List.cons.inj hx).1
    exact absurd hc (by decide)
  | literal h => rcases h with rfl | rfl | rfl <;> exact absurd (List.cons.inj hx).1 (by decide)
  | _ => exact absurd (List.cons.inj hx).1 (by decide)

lemma Value.ne_nil {v : Bytes} (h : Value v) : v ≠ [] := by
  obtain ⟨c, v', rfl, -⟩ := h.exists_cons
  exact List.cons_ne_nil _ _

lemma Value.start {c : UInt8} {q v r : Bytes} (h : Value v) (he : c :: q = v ++ r) :
    c ∈ valueStart := by
  obtain ⟨d, v', rfl, hd⟩ := h.exists_cons
  exact (List.cons.inj he).1 ▸ hd

lemma Value.lead {v r : Bytes} (h : Value v) : Lead (v ++ r) := by
  obtain ⟨c, v', rfl, hc⟩ := h.exists_cons
  have hall : ∀ c ∈ valueStart, isWhitespace c = false := by decide +kernel
  exact lead_cons _ (hall c hc)

/-! ### The parts of objects and arrays -/

/-- What stands between the brackets around a list of texts: white space where there are none. -/
def Inside (l : List Bytes) (inner : Bytes) : Prop :=
  (l = [] ∧ Whitespace inner) ∨ (l ≠ [] ∧ inner = commas l)

/-- Texts with commas between them, and the byte `c` that closes the list. -/
def opened (c : UInt8) : List Bytes → Bytes → Bytes
  | [], q => c :: q
  | a :: l, q => a ++ closing c l q

lemma Inside.append {l : List Bytes} {inner : Bytes} (h : Inside l inner) (c : UInt8) (q : Bytes) :
    ∃ w, Whitespace w ∧ (l ≠ [] → w = []) ∧ inner ++ c :: q = w ++ opened c l q := by
  obtain ⟨rfl, hw⟩ | ⟨hne, rfl⟩ := h
  · exact ⟨inner, hw, fun h => absurd rfl h, rfl⟩
  · refine ⟨[], fun c hc => absurd hc List.not_mem_nil, fun _ => rfl, ?_⟩
    cases l with
    | nil => exact absurd rfl hne
    | cons a l => exact commas_append c a l q

/-- An object with these members. -/
structure IsObject (ms : List Member) (v : Bytes) : Prop where
  framed : ∀ m ∈ ms, m.Framed
  value : ∀ m ∈ ms, Value m.value
  text : ∃ inner, Inside (ms.map Member.text) inner ∧ v = ch '{' :: inner ++ [ch '}']

/-- An array with these elements. -/
structure IsArray (es : List Element) (v : Bytes) : Prop where
  framed : ∀ e ∈ es, e.Framed
  value : ∀ e ∈ es, Value e.value
  text : ∃ inner, Inside (es.map Element.text) inner ∧ v = ch '[' :: inner ++ [ch ']']

lemma IsObject.cur_eq {ms : List Member} {v : Bytes} (h : IsObject ms v) : cur v = ch '{' := by
  obtain ⟨inner, -, rfl⟩ := h.text
  rfl

lemma IsObject.isValue {ms : List Member} {v : Bytes} (h : IsObject ms v) : Value v := by
  obtain ⟨hf, hv, inner, hinner, rfl⟩ := h
  obtain ⟨-, hw⟩ | ⟨hne, rfl⟩ := hinner
  · exact .emptyObject hw
  · exact .object (by simpa using hne) hf hv

lemma IsArray.isValue {es : List Element} {v : Bytes} (h : IsArray es v) : Value v := by
  obtain ⟨hf, hv, inner, hinner, rfl⟩ := h
  obtain ⟨-, hw⟩ | ⟨hne, rfl⟩ := hinner
  · exact .emptyArray hw
  · exact .array (by simpa using hne) hf hv

lemma Value.isObject {v : Bytes} (h : Value (ch '{' :: v)) : ∃ ms, IsObject ms (ch '{' :: v) := by
  generalize hx : ch '{' :: v = x at h
  cases h with
  | string h =>
    obtain ⟨b, -, rfl⟩ := h
    exact absurd (List.cons.inj hx).1 (by decide)
  | number h =>
    obtain ⟨c, s, rfl, hc⟩ := h.exists_cons
    obtain rfl := (List.cons.inj hx).1
    exact absurd hc (by decide)
  | literal h => rcases h with rfl | rfl | rfl <;> exact absurd (List.cons.inj hx).1 (by decide)
  | @emptyObject w h => exact ⟨[], by simp, by simp, w, .inl ⟨rfl, h⟩, rfl⟩
  | @object ms hne hf hv => exact ⟨ms, hf, hv, _, .inr ⟨by simpa using hne, rfl⟩, rfl⟩
  | _ => exact absurd (List.cons.inj hx).1 (by decide)

lemma Value.isArray {v : Bytes} (h : Value (ch '[' :: v)) : ∃ es, IsArray es (ch '[' :: v) := by
  generalize hx : ch '[' :: v = x at h
  cases h with
  | string h =>
    obtain ⟨b, -, rfl⟩ := h
    exact absurd (List.cons.inj hx).1 (by decide)
  | number h =>
    obtain ⟨c, s, rfl, hc⟩ := h.exists_cons
    obtain rfl := (List.cons.inj hx).1
    exact absurd hc (by decide)
  | literal h => rcases h with rfl | rfl | rfl <;> exact absurd (List.cons.inj hx).1 (by decide)
  | @emptyArray w h => exact ⟨[], by simp, by simp, w, .inl ⟨rfl, h⟩, rfl⟩
  | @array es hne hf hv => exact ⟨es, hf, hv, _, .inr ⟨by simpa using hne, rfl⟩, rfl⟩
  | _ => exact absurd (List.cons.inj hx).1 (by decide)

lemma length_closing (c : UInt8) (l : List Bytes) (q : Bytes) :
    l.length + q.length < (closing c l q).length := by
  induction l with
  | nil => simp [closing]
  | cons a l ih =>
    simp only [closing, List.length_cons, List.length_append]
    omega

lemma length_opened (c : UInt8) (l : List Bytes) (q : Bytes) :
    l.length + q.length ≤ (opened c l q).length := by
  cases l with
  | nil =>
    rw [opened, List.length_cons, List.length_nil]
    omega
  | cons a l =>
    have hle := length_closing c l q
    rw [opened, List.length_append, List.length_cons]
    omega

/-- The text of an object from its opening brace on. -/
lemma IsObject.exists_opened {ms : List Member} {v : Bytes} (h : IsObject ms v) (t : Bytes) :
    ∃ w, Whitespace w ∧ (ms ≠ [] → w = []) ∧
          v ++ t = ch '{' :: (w ++ opened (ch '}') (ms.map Member.text) t) := by
  obtain ⟨-, -, inner, hinner, rfl⟩ := h
  obtain ⟨w, hw, hempty, happend⟩ := hinner.append (ch '}') t
  refine ⟨w, hw, fun hne => hempty (by simpa using hne), ?_⟩
  rw [← happend]
  simp

/-- The text of a member and of what follows it stands in the object. -/
lemma IsObject.length_member_lt {before after : List Member} {m : Member} {v : Bytes}
    (h : IsObject (before ++ m :: after) v) (t : Bytes) :
    (m.text ++ closing (ch '}') (after.map Member.text) t).length < (v ++ t).length := by
  obtain ⟨w, -, hempty, htext⟩ := h.exists_opened t
  obtain rfl := hempty (by simp)
  rw [htext, List.nil_append, List.length_cons, List.map_append, List.map_cons]
  cases before.map Member.text with
  | nil => exact Nat.lt_succ_self _
  | cons a l =>
    rw [List.cons_append, opened, closing_append, closing]
    simp only [List.length_append, List.length_cons]
    omega

/-- **A JSON text**, after an optional byte order mark. -/
def Document (text : Bytes) : Prop := ∃ mark before v after,
  (mark = [] ∨ mark = [0xef, 0xbb, 0xbf]) ∧ Whitespace before ∧ Value v ∧ Whitespace after ∧
    text = mark ++ before ++ v ++ after

end Wpm.Lib.Json
