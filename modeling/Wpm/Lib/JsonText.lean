import Wpm.Lib.Json
import Wpm.Lib.Decimal
import Mathlib.Tactic.IntervalCases

/-!
JSON as it is written: objects and arrays without white space, and the numbers of `%d`.

What is written so is a value. That a text is none can be told from a byte outside its strings which
no value has there.
-/

namespace Wpm.Lib.Json

open Wpm.Lib.CString Wpm.Lib.Decimal

/-! ### Writing -/

/-- A key and a value as a member. -/
def memberText (m : Bytes × Bytes) : Bytes := ch '"' :: (m.1 ++ ch '"' :: ch ':' :: m.2)

def objectText (ms : List (Bytes × Bytes)) : Bytes :=
  ch '{' :: commas (ms.map memberText) ++ [ch '}']

def arrayText (vs : List Bytes) : Bytes := ch '[' :: commas vs ++ [ch ']']

/-- Nothing in the text is to be escaped. -/
def Plain (s : Bytes) : Prop := ∀ c ∈ s, 0x20 ≤ c ∧ c ≠ ch '"' ∧ c ≠ ch '\\'

instance (s : Bytes) : Decidable (Plain s) := List.decidableBAll _ s

lemma whitespace_nil : Whitespace [] := fun _ h => absurd h List.not_mem_nil

lemma Plain.characters {s : Bytes} (h : Plain s) : Characters s := by
  induction s with
  | nil => exact .nil
  | cons c s ih =>
    obtain ⟨hc, hq, hb⟩ := h c List.mem_cons_self
    exact .cons (.raw hc hq hb) (ih fun d hd => h d (List.mem_cons_of_mem c hd))

lemma Plain.isString {s : Bytes} (h : Plain s) : IsString (ch '"' :: s ++ [ch '"']) :=
  ⟨s, h.characters, rfl⟩

/-- Keys without anything to escape, and values. -/
def Fields (ms : List (Bytes × Bytes)) : Prop := ∀ m ∈ ms, Plain m.1 ∧ Value m.2

lemma Fields.nil : Fields [] := fun _ h => absurd h List.not_mem_nil

/-- That a key has nothing to escape is computed. -/
lemma Fields.cons {key value : Bytes} {ms : List (Bytes × Bytes)}
    (hkey : (key.all fun c => decide (0x20 ≤ c ∧ c ≠ ch '"' ∧ c ≠ ch '\\')) = true)
    (hvalue : Value value) (h : Fields ms) : Fields ((key, value) :: ms) :=
  List.forall_mem_cons.2 ⟨⟨forall_mem_of_all hkey, hvalue⟩, h⟩

lemma Fields.append {ms ms' : List (Bytes × Bytes)} (h : Fields ms) (h' : Fields ms') :
    Fields (ms ++ ms') := List.forall_mem_append.2 ⟨h, h'⟩

/-- A key and a value as a member of an object. -/
def writtenMember (m : Bytes × Bytes) : Member := ⟨[], ch '"' :: m.1 ++ [ch '"'], [], [], m.2, []⟩

lemma text_writtenMember (m : Bytes × Bytes) : (writtenMember m).text = memberText m := by
  simp [Member.text, memberText, writtenMember]

theorem isObject_objectText {ms : List (Bytes × Bytes)} (h : Fields ms) :
    IsObject (ms.map writtenMember) (objectText ms) := by
  have htext : (ms.map writtenMember).map Member.text = ms.map memberText := by
    rw [List.map_map]
    exact List.map_congr_left fun m _ => text_writtenMember m
  refine ⟨fun m hm => ?_, fun m hm => ?_, commas (ms.map memberText), ?_, rfl⟩
  · obtain ⟨m, hmem, rfl⟩ := List.mem_map.1 hm
    exact ⟨whitespace_nil, (h m hmem).1.isString, whitespace_nil, whitespace_nil, whitespace_nil⟩
  · obtain ⟨m, hmem, rfl⟩ := List.mem_map.1 hm
    exact (h m hmem).2
  · rw [htext]
    cases ms with
    | nil => exact .inl ⟨rfl, whitespace_nil⟩
    | cons m l => exact .inr ⟨by simp, rfl⟩

theorem value_objectText {ms : List (Bytes × Bytes)} (h : Fields ms) : Value (objectText ms) :=
  (isObject_objectText h).isValue

theorem value_arrayText {vs : List Bytes} (h : ∀ v ∈ vs, Value v) : Value (arrayText vs) := by
  cases hvs : vs with
  | nil => exact .emptyArray whitespace_nil
  | cons v l =>
    let elements := vs.map fun v => (⟨[], v, []⟩ : Element)
    have htext : elements.map Element.text = vs := by
      rw [List.map_map]
      exact (List.map_congr_left fun v _ => by simp [Element.text]).trans (List.map_id vs)
    have hvalue := @Value.array elements (by simp [elements, hvs])
      (fun e he => by
        obtain ⟨v, -, rfl⟩ := List.mem_map.1 he
        exact ⟨whitespace_nil, whitespace_nil⟩)
      (fun e he => by
        obtain ⟨v, hmem, rfl⟩ := List.mem_map.1 he
        exact h v hmem)
    rw [htext, hvs] at hvalue
    exact hvalue

/-! ### Numbers -/

/-- The first digit is no zero, unless it is all. -/
lemma toDigits_eq_cons {n : ℕ} (h : n ≠ 0) : ∃ d ds, Nat.toDigits 10 n = d :: ds ∧ d ≠ '0' := by
  induction n using Nat.strong_induction_on with
  | h n ih =>
    by_cases hn : n < 10
    · refine ⟨_, [], Nat.toDigits_of_lt_base hn, ?_⟩
      interval_cases n
      all_goals first | exact absurd rfl h | decide
    · obtain ⟨d, ds, hds, hd⟩ := ih (n / 10) (by omega) (by omega)
      refine ⟨d, ds ++ [(n % 10).digitChar], ?_, hd⟩
      rw [Nat.toDigits_of_base_le (by decide) (Nat.not_lt.1 hn), hds, List.cons_append]

lemma integer_toDigits (n : ℕ) : Integer ((Nat.toDigits 10 n).map ch) := by
  by_cases h : n = 0
  · rw [h]
    exact .zero
  · obtain ⟨d, ds, hds, hd⟩ := toDigits_eq_cons h
    have hprint : ∀ c ∈ Nat.toDigits 10 n, (ch c).toNat = c.toNat ∧ isDigit (ch c) = true :=
      fun c hc => toNat_ch_of_mem_toDigits hc
    rw [hds] at hprint ⊢
    obtain ⟨hnat, hdigit⟩ := hprint d List.mem_cons_self
    refine .digits hdigit (fun hzero => hd ?_) fun c hc => ?_
    · rw [hzero] at hnat
      exact Char.ext (UInt32.toNat_inj.1 hnat.symm)
    · obtain ⟨e, he, rfl⟩ := List.mem_map.1 hc
      exact (hprint e (List.mem_cons_of_mem d he)).2

/-- The numbers of `%d` are numbers. -/
theorem isNumber_printInt (n : ℤ) : IsNumber (printInt n) := by
  refine ⟨if n < 0 then [ch '-'] else [], _, [], [], ?_, integer_toDigits n.natAbs, .none, .none, ?_⟩
  · split_ifs
    · exact .inr rfl
    · exact .inl rfl
  · rw [List.append_nil, List.append_nil, printInt]

/-! ### Outside the strings -/

/-- Where a byte stands: outside the strings, in one, behind a backslash in one, or behind a byte
that no value has outside its strings. -/
inductive Place
  | outside | inside | escaped | lost
  deriving DecidableEq

/-- The bytes that values have outside their strings. -/
def isStructural (c : UInt8) : Bool :=
  isWhitespace c || isDigit c || decide (c ∈ str "\x7b\x7d[]:,+-.Etruefalsn")

def Place.step : Place → UInt8 → Place
  | .outside, c => if c = ch '"' then .inside else if isStructural c then .outside else .lost
  | .inside, c => if c = ch '"' then .outside else if c = ch '\\' then .escaped else .inside
  | .escaped, _ => .inside
  | .lost, _ => .lost

/-- The text comes back to the outside. -/
def Balanced (t : Bytes) : Prop := t.foldl Place.step .outside = .outside

/-- The text has a byte outside its strings that no value has there. -/
def Spoiled (t : Bytes) : Prop := t.foldl Place.step .outside = .lost

instance (t : Bytes) : Decidable (Balanced t) := inferInstanceAs (Decidable (_ = _))

instance (t : Bytes) : Decidable (Spoiled t) := inferInstanceAs (Decidable (_ = _))

lemma Spoiled.not_balanced {t : Bytes} (h : Spoiled t) : ¬Balanced t := by
  intro hb
  rw [Spoiled, hb] at h
  exact absurd h (by decide)

lemma Balanced.append {a b : Bytes} (ha : Balanced a) (hb : Balanced b) : Balanced (a ++ b) := by
  rw [Balanced, List.foldl_append, ha]
  exact hb

lemma Balanced.append_spoiled {a b : Bytes} (ha : Balanced a) (hb : Spoiled b) :
    Spoiled (a ++ b) := by
  rw [Spoiled, List.foldl_append, ha]
  exact hb

lemma foldl_lost (t : Bytes) : t.foldl Place.step .lost = .lost := by
  induction t with
  | nil => rfl
  | cons c t ih => exact ih

lemma Spoiled.append {a : Bytes} (ha : Spoiled a) (b : Bytes) : Spoiled (a ++ b) := by
  rw [Spoiled, List.foldl_append, ha]
  exact foldl_lost b

lemma balanced_of_isStructural {t : Bytes} (h : ∀ c ∈ t, isStructural c = true) : Balanced t := by
  induction t with
  | nil => rfl
  | cons c t ih =>
    have hc := h c List.mem_cons_self
    have hquote : c ≠ ch '"' := by
      rintro rfl
      exact absurd hc (by decide)
    have hstep : Place.step .outside c = .outside := (if_neg hquote).trans (if_pos hc)
    rw [Balanced, List.foldl_cons, hstep]
    exact ih fun d hd => h d (List.mem_cons_of_mem c hd)

lemma balanced_commas {l : List Bytes} (h : ∀ a ∈ l, Balanced a) : Balanced (commas l) := by
  induction l with
  | nil => rfl
  | cons a l ih =>
    have ha := h a List.mem_cons_self
    cases l with
    | nil => rwa [commas_singleton]
    | cons b l =>
      rw [commas_cons a (List.cons_ne_nil b l)]
      have hcomma : Balanced [ch ','] := by decide
      exact ha.append (hcomma.append (ih fun d hd => h d (List.mem_cons_of_mem a hd)))

/-- A spoiled text behind balanced ones spoils the list. -/
lemma spoiled_commas {l r : List Bytes} {b : Bytes} (h : ∀ a ∈ l, Balanced a) (hb : Spoiled b) :
    Spoiled (commas (l ++ b :: r)) := by
  induction l with
  | nil =>
    cases r with
    | nil => rwa [List.nil_append, commas_singleton]
    | cons c r =>
      rw [List.nil_append, commas_cons b (List.cons_ne_nil c r)]
      exact hb.append _
  | cons a l ih =>
    have hcomma : Balanced [ch ','] := by decide
    rw [List.cons_append, commas_cons a (by simp)]
    exact (h a List.mem_cons_self).append_spoiled
      (hcomma.append_spoiled (ih fun d hd => h d (List.mem_cons_of_mem a hd)))

/-! ### Values are balanced -/

lemma foldl_inside {s : Bytes} (h : Plain s) : s.foldl Place.step .inside = .inside := by
  induction s with
  | nil => rfl
  | cons c s ih =>
    obtain ⟨-, hq, hb⟩ := h c List.mem_cons_self
    have hstep : Place.step .inside c = .inside := (if_neg hq).trans (if_neg hb)
    rw [List.foldl_cons, hstep]
    exact ih fun d hd => h d (List.mem_cons_of_mem c hd)

lemma Hex.plain {h : Bytes} {n : ℕ} (hh : Hex h n) : Plain h := by
  obtain ⟨ds, hds, -⟩ := hh
  intro c hc
  have hmem : hexValue c ∈ h.map hexValue := List.mem_map.2 ⟨c, hc, rfl⟩
  rw [hds] at hmem
  obtain ⟨d, -, hd⟩ := List.mem_map.1 hmem
  have hlower : lower c ∈ str "0123456789abcdef" := by
    by_contra hnot
    rw [hexValue, List.idxOf?_eq_none_iff.2 hnot] at hd
    exact absurd hd (by simp)
  have hall : ∀ d ∈ str "0123456789abcdef", 0x20 ≤ d ∧ d ≠ ch '"' ∧ d ≠ ch '\\' :=
    forall_mem_of_all (by decide)
  unfold lower at hlower
  split_ifs at hlower with hupper
  · refine ⟨UInt8.le_trans (by decide) hupper.1, ?_, ?_⟩
    · rintro rfl
      exact absurd hupper (by decide)
    · rintro rfl
      exact absurd hupper (by decide)
  · exact hall c hlower

lemma Character.zero_notMem {a : Bytes} (h : Character a) : 0 ∉ a := by
  intro hmem
  have hplain : ∀ {h : Bytes} {n : ℕ}, Hex h n → 0 ∉ h := fun hh hmem =>
    absurd (hh.plain 0 hmem).1 (by decide)
  have hescapes : ∀ c ∈ str "\"\\/bfnrt", c ≠ 0 := forall_mem_of_all (by decide)
  have hlead : ∀ {h : Bytes}, 0 ∈ ch '\\' :: ch 'u' :: h → 0 ∈ h := fun hmem => by
    simpa [show (0 : UInt8) ≠ ch '\\' by decide, show (0 : UInt8) ≠ ch 'u' by decide] using hmem
  cases h with
  | raw hc hq hb => exact absurd (List.mem_singleton.1 hmem ▸ hc) (by decide)
  | @escape c hc =>
    rcases List.mem_cons.1 hmem with hmem | hmem
    · exact absurd hmem (by decide)
    · exact hescapes c hc (List.mem_singleton.1 hmem).symm
  | unicode hl hh hn => exact hplain hh (hlead hmem)
  | pair hhl hh hn hll hl hm =>
    rcases List.mem_append.1 hmem with hmem | hmem
    · exact hplain hh (hlead hmem)
    · exact hplain hl (hlead hmem)

/-- No byte of a string is zero. -/
lemma IsString.zero_notMem {s : Bytes} (h : IsString s) : 0 ∉ s := by
  obtain ⟨b, hb, rfl⟩ := h
  have hinside : 0 ∉ b := by
    induction hb with
    | nil => exact List.not_mem_nil
    | cons ha _ ih => exact fun hmem => (List.mem_append.1 hmem).elim ha.zero_notMem ih
  have hquote : (0 : UInt8) ≠ ch '"' := by decide
  simp [hinside, hquote]

lemma Character.foldl_inside {a : Bytes} (h : Character a) :
    a.foldl Place.step .inside = .inside := by
  cases h with
  | raw hc hq hb => exact (if_neg hq).trans (if_neg hb)
  | escape hc => rfl
  | @unicode h n hl hh hn =>
    change h.foldl Place.step .inside = _
    exact Json.foldl_inside hh.plain
  | @pair h l n m hhl hh hn hll hl hm =>
    rw [List.foldl_append]
    change l.foldl Place.step
      (Place.step (Place.step (h.foldl Place.step .inside) (ch '\\')) (ch 'u')) = _
    rw [Json.foldl_inside hh.plain]
    exact Json.foldl_inside hl.plain

lemma IsString.balanced {s : Bytes} (h : IsString s) : Balanced s := by
  obtain ⟨b, hb, rfl⟩ := h
  have hinside : b.foldl Place.step .inside = .inside := by
    induction hb with
    | nil => rfl
    | cons ha _ ih => rw [List.foldl_append, ha.foldl_inside, ih]
  rw [Balanced, List.cons_append, List.foldl_cons, List.foldl_append]
  change [ch '"'].foldl Place.step (b.foldl Place.step .inside) = _
  rw [hinside]
  rfl

lemma Whitespace.balanced {w : Bytes} (h : Whitespace w) : Balanced w := by
  refine balanced_of_isStructural fun c hc => ?_
  rw [isStructural, h c hc]
  rfl

lemma Member.Framed.balanced {m : Member} (h : m.Framed) (hv : Balanced m.value) :
    Balanced m.text := by
  have hcolon : Balanced [ch ':'] := by decide
  have hrest : Balanced (ch ':' :: m.afterColon ++ m.value ++ m.after) :=
    ((hcolon.append h.afterColon.balanced).append hv).append h.after.balanced
  have htext : m.text =
      m.before ++ m.key ++ m.beforeColon ++ (ch ':' :: m.afterColon ++ m.value ++ m.after) := by
    simp [Member.text]
  rw [htext]
  exact ((h.before.balanced.append h.key.balanced).append h.beforeColon.balanced).append hrest

theorem Value.balanced {v : Bytes} (h : Value v) : Balanced v := by
  have hopen : Balanced [ch '{'] ∧ Balanced [ch '}'] ∧ Balanced [ch '['] ∧ Balanced [ch ']'] := by
    decide
  obtain ⟨hbrace, hbrace', hbracket, hbracket'⟩ := hopen
  induction h with
  | string h => exact h.balanced
  | number h =>
    refine balanced_of_isStructural fun c hc => ?_
    have hother : ∀ c ∈ str "+-.eE", isStructural c = true := forall_mem_of_all (by decide)
    obtain hdigit | hmem := h.mem hc
    · rw [isStructural, hdigit, Bool.or_true, Bool.true_or]
    · exact hother c hmem
  | literal h => rcases h with rfl | rfl | rfl <;> decide
  | emptyObject h => exact (hbrace.append h.balanced).append hbrace'
  | object _ hf _ ih =>
    refine (hbrace.append (balanced_commas fun a ha => ?_)).append hbrace'
    obtain ⟨m, hm, rfl⟩ := List.mem_map.1 ha
    exact (hf m hm).balanced (ih m hm)
  | emptyArray h => exact (hbracket.append h.balanced).append hbracket'
  | array _ hf _ ih =>
    refine (hbracket.append (balanced_commas fun a ha => ?_)).append hbracket'
    obtain ⟨e, he, rfl⟩ := List.mem_map.1 ha
    exact ((hf e he).before.balanced.append (ih e he)).append (hf e he).after.balanced

/-- A spoiled value spoils the object. -/
theorem spoiled_objectText {ms ms' : List (Bytes × Bytes)} {key value : Bytes} (h : Fields ms)
    (hkey : Plain key) (hvalue : Spoiled value) :
    Spoiled (objectText (ms ++ (key, value) :: ms')) := by
  have hmember : ∀ {key : Bytes}, Plain key → Balanced (ch '"' :: key ++ [ch '"'] ++ [ch ':']) :=
    fun hkey => hkey.isString.balanced.append (by decide)
  have hbefore : ∀ a ∈ ms.map memberText, Balanced a := by
    intro a ha
    obtain ⟨m, hm, rfl⟩ := List.mem_map.1 ha
    have hm' := (hmember (h m hm).1).append (h m hm).2.balanced
    simpa [memberText] using hm'
  have hthis : Spoiled (memberText (key, value)) := by
    have hm := (hmember hkey).append_spoiled hvalue
    simpa [memberText] using hm
  have hbrace : Balanced [ch '{'] := by decide
  rw [objectText, List.map_append, List.map_cons]
  exact (hbrace.append_spoiled (spoiled_commas hbefore hthis)).append _

end Wpm.Lib.Json
