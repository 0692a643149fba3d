import Wpm.Lib.JsonText
import Wpm.Lib.Utf8

/-!
The bytes of JSON as it is written: it is UTF-8 where its parts are, and no value has a zero byte.
-/

namespace Wpm.Lib.Utf8

open Wpm.Lib.CString Wpm.Lib.Json

/-! ### Texts that are put together -/

lemma WellFormed.nil : WellFormed [] := ⟨[], rfl⟩

lemma WellFormed.append {a b : Bytes} (ha : WellFormed a) (hb : WellFormed b) :
    WellFormed (a ++ b) := by
  obtain ⟨l, rfl⟩ := ha
  obtain ⟨l', rfl⟩ := hb
  exact ⟨l ++ l', (utf8_append l l').symm⟩

/-- The bytes of ASCII are characters by themselves. -/
lemma wellFormed_of_ascii {b : Bytes} (h : ∀ c ∈ b, c < 0x80) : WellFormed b := by
  induction b with
  | nil => exact .nil
  | cons c b ih =>
    have hlt : c.toNat < 0x80 := UInt8.lt_iff_toNat_lt.1 (h c List.mem_cons_self)
    have hchar : (Char.ofNat c.toNat).toNat = c.toNat := toNat_ofNat (.inl (by omega))
    have hbyte : utf8 [Char.ofNat c.toNat] = [c] := by
      rw [utf8_cons, utf8_nil, List.append_nil, utf8_ascii (by omega), hchar, UInt8.ofNat_toNat]
    exact WellFormed.append ⟨_, hbyte.symm⟩ (ih fun d hd => h d (List.mem_cons_of_mem c hd))

lemma WellFormed.commas {l : List Bytes} (h : ∀ a ∈ l, WellFormed a) : WellFormed (commas l) := by
  have hcomma : WellFormed [ch ','] := wellFormed_of_ascii (forall_mem_of_all (by decide))
  induction l with
  | nil => exact .nil
  | cons a l ih =>
    have ha := h a List.mem_cons_self
    cases l with
    | nil => rwa [commas_singleton]
    | cons b l =>
      rw [commas_cons a (List.cons_ne_nil b l)]
      exact ha.append (hcomma.append (ih fun d hd => h d (List.mem_cons_of_mem a hd)))

lemma WellFormed.objectText {ms : List (Bytes × Bytes)}
    (h : ∀ m ∈ ms, WellFormed m.1 ∧ WellFormed m.2) : WellFormed (objectText ms) := by
  have hmarks : WellFormed [ch '{'] ∧ WellFormed [ch '}'] ∧ WellFormed [ch '"'] ∧
      WellFormed [ch '"', ch ':'] := by
    refine ⟨?_, ?_, ?_, ?_⟩ <;> exact wellFormed_of_ascii (forall_mem_of_all (by decide))
  obtain ⟨hopen, hclose, hquote, hcolon⟩ := hmarks
  refine (hopen.append (WellFormed.commas fun a ha => ?_)).append hclose
  obtain ⟨m, hm, rfl⟩ := List.mem_map.1 ha
  obtain ⟨hkey, hvalue⟩ := h m hm
  exact hquote.append (hkey.append (hcolon.append hvalue))

lemma WellFormed.arrayText {vs : List Bytes} (h : ∀ v ∈ vs, WellFormed v) :
    WellFormed (arrayText vs) := by
  have hmarks : WellFormed [ch '['] ∧ WellFormed [ch ']'] := by
    constructor <;> exact wellFormed_of_ascii (forall_mem_of_all (by decide))
  exact (hmarks.1.append (WellFormed.commas h)).append hmarks.2

end Wpm.Lib.Utf8

namespace Wpm.Lib.Json

open Wpm.Lib.CString

/-! ### No zero byte -/

lemma Whitespace.zero_notMem {w : Bytes} (h : Whitespace w) : 0 ∉ w := fun hmem =>
  absurd (h 0 hmem) (by decide)

lemma IsNumber.zero_notMem {s : Bytes} (h : IsNumber s) : 0 ∉ s := fun hmem =>
  (h.mem hmem).elim (fun hdigit => absurd hdigit (by decide)) fun hother =>
    absurd hother (by decide)

lemma zero_notMem_commas {l : List Bytes} (h : ∀ a ∈ l, 0 ∉ a) : 0 ∉ commas l := by
  induction l with
  | nil => exact List.not_mem_nil
  | cons a l ih =>
    have ha := h a List.mem_cons_self
    have hl := ih fun b hb => h b (List.mem_cons_of_mem a hb)
    cases l with
    | nil => rwa [commas_singleton]
    | cons b l =>
      have hcomma : (0 : UInt8) ≠ ch ',' := by decide
      rw [commas_cons a (List.cons_ne_nil b l), List.mem_append, List.mem_cons]
      exact not_or.2 ⟨ha, not_or.2 ⟨hcomma, hl⟩⟩

/-- What stands between two marks. -/
lemma zero_notMem_between {c d : UInt8} {b : Bytes} (hc : c ≠ 0) (hd : d ≠ 0) (hb : 0 ∉ b) :
    0 ∉ c :: b ++ [d] := by
  simp [hc.symm, hd.symm, hb]

/-- **No byte of a value is zero.** -/
theorem Value.zero_notMem {v : Bytes} (h : Value v) : 0 ∉ v := by
  have hbraces : ch '{' ≠ 0 ∧ ch '}' ≠ 0 ∧ ch '[' ≠ 0 ∧ ch ']' ≠ 0 ∧ ch ':' ≠ 0 := by decide
  obtain ⟨hopen, hclose, hopen', hclose', hcolon⟩ := hbraces
  induction h with
  | string h => exact h.zero_notMem
  | number h => exact h.zero_notMem
  | literal h => rcases h with rfl | rfl | rfl <;> decide
  | emptyObject h => exact zero_notMem_between hopen hclose h.zero_notMem
  | @object ms hne hf hv ih =>
    refine zero_notMem_between hopen hclose (zero_notMem_commas fun a ha => ?_)
    obtain ⟨m, hm, rfl⟩ := List.mem_map.1 ha
    obtain ⟨h1, h2, h3, h4, h5⟩ := hf m hm
    have hvalue := ih m hm
    simp [Member.text, h1.zero_notMem, h2.zero_notMem, h3.zero_notMem, h4.zero_notMem,
      h5.zero_notMem, hcolon.symm, hvalue]
  | emptyArray h => exact zero_notMem_between hopen' hclose' h.zero_notMem
  | @array es hne hf hv ih =>
    refine zero_notMem_between hopen' hclose' (zero_notMem_commas fun a ha => ?_)
    obtain ⟨e, he, rfl⟩ := List.mem_map.1 ha
    have hvalue := ih e he
    simp [Element.text, (hf e he).before.zero_notMem, (hf e he).after.zero_notMem, hvalue]

end Wpm.Lib.Json
