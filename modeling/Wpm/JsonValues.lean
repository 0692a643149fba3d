import Wpm.JsonLexical

/-!
The part of `wpm_json_document_valid` that reads numbers, strings and literals.

A reader is right in both directions: what it reads over is of the grammar, and what is of the
grammar is read to its end, before a text that does not go on with it.
-/

namespace Wpm.JsonInput

open Wpm.Lib.CString Wpm.Lib.Json

/-! ### Numbers and literals -/

/-- Read over one digit or more. -/
def readDigits (p : Bytes) : Option Bytes :=
  if isDigit (cur p) then some (p.dropWhile isDigit) else none

def readInteger (p : Bytes) : Option Bytes :=
  if cur p = ch '0' then some p.tail
  else if ch '1' ≤ cur p ∧ cur p ≤ ch '9' then some (p.dropWhile isDigit)
  else none

def readFraction (p : Bytes) : Option Bytes :=
  if cur p = ch '.' then readDigits p.tail else some p

def readExponent (p : Bytes) : Option Bytes :=
  if cur p = ch 'e' ∨ cur p = ch 'E' then
    readDigits (if cur p.tail = ch '+' ∨ cur p.tail = ch '-' then p.tail.tail else p.tail)
  else some p

/-- Read over a number. -/
def readNumber (p : Bytes) : Option Bytes := do
  let p ← readInteger (if cur p = ch '-' then p.tail else p)
  let p ← readFraction p
  readExponent p

/-- Read over a value that is neither an object nor an array. -/
def readScalar (p : Bytes) : Option Bytes :=
  if cur p = ch '"' then (readString false sizeMax p).map Prod.snd
  else if cur p = ch '-' ∨ isDigit (cur p) then readNumber p
  else if (str "true").isPrefixOf p then some (p.drop 4)
  else if (str "false").isPrefixOf p then some (p.drop 5)
  else if (str "null").isPrefixOf p then some (p.drop 4)
  else none

/-- The text does not go on with a digit. -/
def DigitsEnd (q : Bytes) : Prop := ∀ c ∈ q.head?, isDigit c = false

/-- The text does not go on with a number. -/
def NumberEnd (q : Bytes) : Prop :=
  DigitsEnd q ∧ ∀ c ∈ q.head?, c ≠ ch '.' ∧ c ≠ ch 'e' ∧ c ≠ ch 'E'

lemma cur_ne_of_head {c : UInt8} {q : Bytes} (hc : c ≠ 0) (h : ∀ d ∈ q.head?, d ≠ c) : cur q ≠ c := by
  cases q with
  | nil => exact hc.symm
  | cons d q => exact h d rfl

lemma dropWhile_digits {d q : Bytes} (hd : ∀ c ∈ d, isDigit c = true) (hq : DigitsEnd q) :
    (d ++ q).dropWhile isDigit = q := by
  rw [List.dropWhile_append_of_pos hd]
  cases q with
  | nil => rfl
  | cons c q => exact List.dropWhile_cons_of_neg (by simpa using hq c rfl)

lemma readDigits_sound {p q : Bytes} (h : readDigits p = some q) : ∃ d, Digits1 d ∧ p = d ++ q := by
  obtain ⟨hc, h⟩ := Option.ite_none_right_eq_some.1 h
  obtain rfl := Option.some.inj h
  refine ⟨p.takeWhile isDigit, ⟨?_, fun c hc => List.mem_takeWhile_imp hc⟩,
    List.takeWhile_append_dropWhile.symm⟩
  cases p with
  | nil => exact absurd hc (by decide)
  | cons c p =>
    rw [cur_cons] at hc
    simp [hc]

lemma readDigits_append {d q : Bytes} (hd : Digits1 d) (hq : DigitsEnd q) :
    readDigits (d ++ q) = some q := by
  obtain ⟨hne, hd⟩ := hd
  have hcur : isDigit (cur (d ++ q)) = true := by
    cases d with
    | nil => exact absurd rfl hne
    | cons c d => exact hd c List.mem_cons_self
  rw [readDigits, if_pos hcur, dropWhile_digits hd hq]

lemma isDigit_nonzero {c : UInt8} (h : isDigit c = true) (h0 : c ≠ ch '0') :
    ch '1' ≤ c ∧ c ≤ ch '9' := by
  simp only [isDigit, ch] at h h0 ⊢
  grind

lemma readInteger_sound {p q : Bytes} (h : readInteger p = some q) :
    ∃ i, Integer i ∧ p = i ++ q := by
  unfold readInteger at h
  split_ifs at h with h0 h1
  · obtain rfl := Option.some.inj h
    exact ⟨[ch '0'], .zero, cur_eq_cons h0 (by decide)⟩
  · obtain rfl := Option.some.inj h
    cases p with
    | nil => exact absurd h1 (by decide)
    | cons c p =>
      rw [cur_cons] at h0 h1
      have hc : isDigit c = true := by
        simp only [isDigit, ch] at h1 ⊢
        grind
      refine ⟨c :: p.takeWhile isDigit, .digits hc h0 fun c hc => List.mem_takeWhile_imp hc, ?_⟩
      rw [List.dropWhile_cons_of_pos hc, List.cons_append, List.takeWhile_append_dropWhile]

lemma readInteger_append {i q : Bytes} (hi : Integer i) (hq : DigitsEnd q) :
    readInteger (i ++ q) = some q := by
  cases hi with
  | zero => rfl
  | digits hc h0 hd =>
    rw [readInteger, List.cons_append, cur_cons, if_neg h0, if_pos (isDigit_nonzero hc h0),
      List.dropWhile_cons_of_pos hc, dropWhile_digits hd hq]

lemma readFraction_sound {p q : Bytes} (h : readFraction p = some q) :
    ∃ f, Fraction f ∧ p = f ++ q := by
  unfold readFraction at h
  split_ifs at h with hdot
  · obtain ⟨d, hd, htail⟩ := readDigits_sound h
    exact ⟨ch '.' :: d, .some hd, (cur_eq_cons hdot (by decide)).trans (congrArg _ htail)⟩
  · obtain rfl := Option.some.inj h
    exact ⟨[], .none, rfl⟩

lemma readFraction_append {f q : Bytes} (hf : Fraction f) (hq : DigitsEnd q)
    (hdot : ∀ c ∈ q.head?, c ≠ ch '.') : readFraction (f ++ q) = some q := by
  cases hf with
  | none => exact if_neg (cur_ne_of_head (by decide) hdot)
  | some hd => exact (if_pos rfl).trans (readDigits_append hd hq)

lemma readExponent_sound {p q : Bytes} (h : readExponent p = some q) :
    ∃ e, Exponent e ∧ p = e ++ q := by
  unfold readExponent at h
  split_ifs at h with he hs
  · obtain ⟨d, hd, htail⟩ := readDigits_sound h
    have hne : cur p ≠ 0 := by rcases he with he | he <;> rw [he] <;> decide
    have hne' : cur p.tail ≠ 0 := by rcases hs with hs | hs <;> rw [hs] <;> decide
    refine ⟨cur p :: [cur p.tail] ++ d, .some he ?_ hd, ?_⟩
    · rcases hs with hs | hs <;> rw [hs] <;> simp
    · calc p = cur p :: cur p.tail :: p.tail.tail := by
            rw [← cur_eq_cons rfl hne', ← cur_eq_cons rfl hne]
        _ = _ := by rw [htail]; simp
  · obtain ⟨d, hd, htail⟩ := readDigits_sound h
    have hne : cur p ≠ 0 := by rcases he with he | he <;> rw [he] <;> decide
    refine ⟨cur p :: [] ++ d, .some he (.inl rfl) hd, ?_⟩
    exact (cur_eq_cons rfl hne).trans (congrArg _ htail)
  · obtain rfl := Option.some.inj h
    exact ⟨[], .none, rfl⟩

lemma readExponent_append {e q : Bytes} (he : Exponent e) (hq : NumberEnd q) :
    readExponent (e ++ q) = some q := by
  cases he with
  | none =>
    refine if_neg (not_or.2 ⟨?_, ?_⟩)
    · exact cur_ne_of_head (by decide) fun c hc => (hq.2 c hc).2.1
    · exact cur_ne_of_head (by decide) fun c hc => (hq.2 c hc).2.2
  | @some e sign d he hs hd =>
    have hdigits := readDigits_append hd hq.1
    rw [readExponent, List.cons_append, List.cons_append, cur_cons, if_pos he, List.tail_cons]
    rcases hs with rfl | rfl | rfl
    · obtain ⟨hne, hd⟩ := hd
      cases d with
      | nil => exact absurd rfl hne
      | cons c d =>
        have hsign := ne_sign_of_isDigit (hd c List.mem_cons_self)
        have hnot : ¬(c = ch '+' ∨ c = ch '-') := not_or.2 ⟨hsign.2, hsign.1⟩
        simpa [hnot] using hdigits
    · exact hdigits
    · exact hdigits

lemma readNumber_sound {p q : Bytes} (h : readNumber p = some q) :
    ∃ s, IsNumber s ∧ p = s ++ q := by
  obtain ⟨r, hi, h⟩ := Option.bind_eq_some_iff.1 h
  obtain ⟨r', hf, he⟩ := Option.bind_eq_some_iff.1 h
  obtain ⟨i, hint, hi⟩ := readInteger_sound hi
  obtain ⟨f, hfrac, rfl⟩ := readFraction_sound hf
  obtain ⟨e, hexp, rfl⟩ := readExponent_sound he
  split_ifs at hi with hminus
  · refine ⟨_, ⟨[ch '-'], i, f, e, .inr rfl, hint, hfrac, hexp, rfl⟩, ?_⟩
    rw [cur_eq_cons hminus (by decide), hi]
    simp
  · refine ⟨_, ⟨[], i, f, e, .inl rfl, hint, hfrac, hexp, rfl⟩, ?_⟩
    rw [hi]
    simp

/-- A number is read to its end, before a text that does not go on with it. -/
lemma readNumber_append {s q : Bytes} (hs : IsNumber s) (hq : NumberEnd q) :
    readNumber (s ++ q) = some q := by
  obtain ⟨minus, i, f, e, hminus, hint, hfrac, hexp, rfl⟩ := hs
  have hskip : (if cur (minus ++ i ++ f ++ e ++ q) = ch '-' then
      (minus ++ i ++ f ++ e ++ q).tail else minus ++ i ++ f ++ e ++ q) = i ++ (f ++ (e ++ q)) := by
    rcases hminus with rfl | rfl
    · have hne : cur ([] ++ i ++ f ++ e ++ q) ≠ ch '-' := by
        cases hint with
        | zero => exact (by decide : ch '0' ≠ ch '-')
        | digits hc h0 hd => exact (ne_sign_of_isDigit hc).1
      rw [if_neg hne]
      simp
    · simp
  have hexpEnd : DigitsEnd (e ++ q) ∧ ∀ c ∈ (e ++ q).head?, c ≠ ch '.' := by
    cases hexp with
    | none => exact ⟨hq.1, fun c hc => (hq.2 c hc).1⟩
    | some he hs hd =>
      refine ⟨fun c hc => ?_, fun c hc => ?_⟩
      · obtain rfl := Option.some.inj hc
        rcases he with rfl | rfl <;> decide
      · obtain rfl := Option.some.inj hc
        rcases he with rfl | rfl <;> decide
  have hfracEnd : DigitsEnd (f ++ (e ++ q)) := by
    cases hfrac with
    | none => exact hexpEnd.1
    | some hd =>
      intro c hc
      obtain rfl := Option.some.inj hc
      decide
  have hinteger := readInteger_append hint hfracEnd
  have hfraction := readFraction_append hfrac hexpEnd.1 hexpEnd.2
  rw [readNumber, hskip]
  refine Option.bind_eq_some_iff.2 ⟨_, hinteger, ?_⟩
  exact Option.bind_eq_some_iff.2 ⟨_, hfraction, readExponent_append hexp hq⟩

lemma readScalar_sound {p q : Bytes} (hp : Lead p) (hsize : p.length ≤ sizeMax)
    (h : readScalar p = some q) : ∃ v, Value v ∧ p = v ++ q := by
  unfold readScalar at h
  split_ifs at h with hquote hnumber htrue hfalse hnull
  · obtain ⟨⟨out, q'⟩, hread, rfl⟩ := Option.map_eq_some_iff.1 h
    obtain ⟨s, hs, hp⟩ := (readString_iff hp hsize).1 ⟨out, hread⟩
    exact ⟨s, .string hs, hp⟩
  · obtain ⟨s, hs, hp⟩ := readNumber_sound h
    exact ⟨s, .number hs, hp⟩
  · obtain ⟨t, rfl⟩ := List.isPrefixOf_iff_prefix.1 htrue
    obtain rfl := Option.some.inj h
    exact ⟨str "true", .literal (.inl rfl), rfl⟩
  · obtain ⟨t, rfl⟩ := List.isPrefixOf_iff_prefix.1 hfalse
    obtain rfl := Option.some.inj h
    exact ⟨str "false", .literal (.inr (.inl rfl)), rfl⟩
  · obtain ⟨t, rfl⟩ := List.isPrefixOf_iff_prefix.1 hnull
    obtain rfl := Option.some.inj h
    exact ⟨str "null", .literal (.inr (.inr rfl)), rfl⟩

/-- **A value that is neither an object nor an array** is read to its end. -/
lemma readScalar_append {v q : Bytes} (hv : Value v) (hsize : (v ++ q).length ≤ sizeMax)
    (hopen : cur (v ++ q) ≠ ch '{' ∧ cur (v ++ q) ≠ ch '[') (hq : NumberEnd q) :
    readScalar (v ++ q) = some q := by
  have hlead : Lead (v ++ q) := hv.lead
  unfold readScalar
  cases hv with
  | string hs =>
    obtain ⟨out, hread⟩ := (readString_iff hlead hsize).2 ⟨v, hs, rfl⟩
    obtain ⟨b, -, rfl⟩ := hs
    have hquote : cur (ch '"' :: b ++ [ch '"'] ++ q) = ch '"' := rfl
    rw [if_pos hquote, hread]
    rfl
  | number hs =>
    have hread := readNumber_append hs hq
    obtain ⟨c, s', rfl, hc⟩ := hs.exists_cons
    have hquote : c ≠ ch '"' := by
      rintro rfl
      exact absurd hc (by decide)
    rw [List.cons_append, cur_cons, if_neg hquote, if_pos hc]
    exact hread
  | literal h => rcases h with rfl | rfl | rfl <;> rfl
  | emptyObject => exact absurd rfl hopen.1
  | object => exact absurd rfl hopen.1
  | emptyArray => exact absurd rfl hopen.2
  | array => exact absurd rfl hopen.2

end Wpm.JsonInput
