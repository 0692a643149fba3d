import Wpm.JsonValues

/-!
What the states of `wpm_json_document_valid` ask for, by the grammar.

A state stands for a place in a value, object or array; `Completes` gives the texts that may follow
there up to the end of that object or array. They are tied to the grammar at the brace or bracket
that opens one: what follows it completes the first state exactly if it is the rest of a value.
-/

namespace Wpm.JsonInput

open Wpm.Lib.CString Wpm.Lib.Json

/-- The states of `wpm_json_document_valid`. -/
inductive State
  | rootValue | rootEnd
  | objectFirst | objectKey | objectColon | objectValue | objectEnd
  | arrayFirst | arrayValue | arrayEnd
  deriving DecidableEq

/-- The state after a value. -/
def State.afterValue : State → State
  | .rootValue => .rootEnd
  | .objectValue => .objectEnd
  | _ => .arrayEnd

/-! ### What a state asks for -/

/-- **What completes a state**, without leading white space, when what comes after the object or
array around it is in `K`. -/
inductive Completes (K : Bytes → Prop) : State → Bytes → Prop
  | rootValue {v r : Bytes} (hv : Value v) (h : Completes K .rootEnd (jsonSpace r)) :
    Completes K .rootValue (v ++ r)
  | rootEnd : Completes K .rootEnd []
  | objectClose {q : Bytes} (h : K q) : Completes K .objectFirst (ch '}' :: q)
  | objectFirst {x : Bytes} (h : Completes K .objectKey x) : Completes K .objectFirst x
  | objectKey {k r : Bytes} (hk : IsString k) (h : Completes K .objectColon (jsonSpace r)) :
    Completes K .objectKey (k ++ r)
  | objectColon {r : Bytes} (h : Completes K .objectValue (jsonSpace r)) :
    Completes K .objectColon (ch ':' :: r)
  | objectValue {v r : Bytes} (hv : Value v) (h : Completes K .objectEnd (jsonSpace r)) :
    Completes K .objectValue (v ++ r)
  | objectEnd {q : Bytes} (h : K q) : Completes K .objectEnd (ch '}' :: q)
  | objectComma {r : Bytes} (h : Completes K .objectKey (jsonSpace r)) :
    Completes K .objectEnd (ch ',' :: r)
  | arrayClose {q : Bytes} (h : K q) : Completes K .arrayFirst (ch ']' :: q)
  | arrayFirst {x : Bytes} (h : Completes K .arrayValue x) : Completes K .arrayFirst x
  | arrayValue {v r : Bytes} (hv : Value v) (h : Completes K .arrayEnd (jsonSpace r)) :
    Completes K .arrayValue (v ++ r)
  | arrayEnd {q : Bytes} (h : K q) : Completes K .arrayEnd (ch ']' :: q)
  | arrayComma {r : Bytes} (h : Completes K .arrayValue (jsonSpace r)) :
    Completes K .arrayEnd (ch ',' :: r)

/-- The rest of an object, from a member on: the members, the closing brace, and what is in `K`. -/
def ObjectRest (K : Bytes → Prop) (y : Bytes) : Prop :=
  ∃ (ms : List Member) (q : Bytes), ms ≠ [] ∧ (∀ m ∈ ms, m.Framed) ∧ (∀ m ∈ ms, Value m.value) ∧
    y = commas (ms.map Member.text) ++ ch '}' :: q ∧ K q

/-- The rest of an array, from an element on. -/
def ArrayRest (K : Bytes → Prop) (y : Bytes) : Prop :=
  ∃ (es : List Element) (q : Bytes), es ≠ [] ∧ (∀ e ∈ es, e.Framed) ∧ (∀ e ∈ es, Value e.value) ∧
    y = commas (es.map Element.text) ++ ch ']' :: q ∧ K q

section

variable {K : Bytes → Prop}

lemma ObjectRest.last {m : Member} {q : Bytes} (hm : m.Framed) (hv : Value m.value) (hq : K q) :
    ObjectRest K (m.text ++ ch '}' :: q) := by
  refine ⟨[m], q, List.cons_ne_nil _ _, ?_, ?_, by rw [List.map_singleton, commas_singleton], hq⟩
  · exact fun m' h => List.mem_singleton.1 h ▸ hm
  · exact fun m' h => List.mem_singleton.1 h ▸ hv

lemma ObjectRest.cons {m : Member} {y : Bytes} (hm : m.Framed) (hv : Value m.value)
    (h : ObjectRest K y) : ObjectRest K (m.text ++ ch ',' :: y) := by
  obtain ⟨ms, q, hne, hf, hvs, rfl, hq⟩ := h
  refine ⟨m :: ms, q, List.cons_ne_nil _ _, List.forall_mem_cons.2 ⟨hm, hf⟩,
    List.forall_mem_cons.2 ⟨hv, hvs⟩, ?_, hq⟩
  rw [List.map_cons, commas_cons _ (mt List.map_eq_nil_iff.1 hne), List.append_assoc]
  rfl

lemma ArrayRest.last {e : Element} {q : Bytes} (he : e.Framed) (hv : Value e.value) (hq : K q) :
    ArrayRest K (e.text ++ ch ']' :: q) := by
  refine ⟨[e], q, List.cons_ne_nil _ _, ?_, ?_, by rw [List.map_singleton, commas_singleton], hq⟩
  · exact fun e' h => List.mem_singleton.1 h ▸ he
  · exact fun e' h => List.mem_singleton.1 h ▸ hv

lemma ArrayRest.cons {e : Element} {y : Bytes} (he : e.Framed) (hv : Value e.value)
    (h : ArrayRest K y) : ArrayRest K (e.text ++ ch ',' :: y) := by
  obtain ⟨es, q, hne, hf, hvs, rfl, hq⟩ := h
  refine ⟨e :: es, q, List.cons_ne_nil _ _, List.forall_mem_cons.2 ⟨he, hf⟩,
    List.forall_mem_cons.2 ⟨hv, hvs⟩, ?_, hq⟩
  rw [List.map_cons, commas_cons _ (mt List.map_eq_nil_iff.1 hne), List.append_assoc]
  rfl

/-- A state and the text of its object or array before it, up to white space `w`. -/
def Wraps (K : Bytes → Prop) : State → Bytes → Prop
  | .objectKey, x => ∀ w, Whitespace w → ObjectRest K (w ++ x)
  | .objectColon, x => ∀ before k w, Whitespace before → IsString k → Whitespace w →
    ObjectRest K (before ++ k ++ w ++ x)
  | .objectValue, x => ∀ before k colon w, Whitespace before → IsString k → Whitespace colon →
    Whitespace w → ObjectRest K (before ++ k ++ colon ++ ch ':' :: (w ++ x))
  | .objectEnd, x => ∀ m : Member, m.Framed → Value m.value → ObjectRest K (m.text ++ x)
  | .arrayValue, x => ∀ w, Whitespace w → ArrayRest K (w ++ x)
  | .arrayEnd, x => ∀ e : Element, e.Framed → Value e.value → ArrayRest K (e.text ++ x)
  | .objectFirst, x => ∀ w, Whitespace w → ∃ v r, Value v ∧ ch '{' :: (w ++ x) = v ++ r ∧ K r
  | .arrayFirst, x => ∀ w, Whitespace w → ∃ v r, Value v ∧ ch '[' :: (w ++ x) = v ++ r ∧ K r
  | _, _ => True

/-- What completes a state is derived by the grammar. -/
lemma Completes.wraps {s : State} {x : Bytes} (h : Completes K s x) : Wraps K s x := by
  induction h with
  | rootValue => trivial
  | rootEnd => trivial
  | @objectClose q hq =>
    intro w hw
    exact ⟨ch '{' :: w ++ [ch '}'], q, .emptyObject hw, by simp, hq⟩
  | objectFirst _ ih =>
    intro w hw
    obtain ⟨ms, q, hne, hf, hv, htext, hq⟩ := ih w hw
    exact ⟨_, q, .object hne hf hv, by rw [htext]; simp, hq⟩
  | @objectKey k r hk _ ih =>
    intro before hbefore
    obtain ⟨w, hw, hr⟩ := exists_jsonSpace r
    have h := ih before k w hbefore hk hw
    rw [List.append_assoc, ← hr, List.append_assoc] at h
    exact h
  | @objectColon r _ ih =>
    intro before k colon hbefore hk hcolon
    obtain ⟨w, hw, hr⟩ := exists_jsonSpace r
    have h := ih before k colon w hbefore hk hcolon hw
    rw [← hr] at h
    exact h
  | @objectValue v r hv _ ih =>
    intro before k colon w hbefore hk hcolon hw
    obtain ⟨after, hafter, hr⟩ := exists_jsonSpace r
    have h := ih ⟨before, k, colon, w, v, after⟩ ⟨hbefore, hk, hcolon, hw, hafter⟩ hv
    have htext : Member.text ⟨before, k, colon, w, v, after⟩ ++ jsonSpace r =
        before ++ k ++ colon ++ ch ':' :: (w ++ (v ++ (after ++ jsonSpace r))) := by
      simp [Member.text]
    rw [htext, ← hr] at h
    exact h
  | objectEnd hq => exact fun m hm hv => .last hm hv hq
  | @objectComma r _ ih =>
    intro m hm hv
    obtain ⟨w, hw, hr⟩ := exists_jsonSpace r
    have h := ih w hw
    rw [← hr] at h
    exact .cons hm hv h
  | @arrayClose q hq =>
    intro w hw
    exact ⟨ch '[' :: w ++ [ch ']'], q, .emptyArray hw, by simp, hq⟩
  | arrayFirst _ ih =>
    intro w hw
    obtain ⟨es, q, hne, hf, hv, htext, hq⟩ := ih w hw
    exact ⟨_, q, .array hne hf hv, by rw [htext]; simp, hq⟩
  | @arrayValue v r hv _ ih =>
    intro w hw
    obtain ⟨after, hafter, hr⟩ := exists_jsonSpace r
    have h := ih ⟨w, v, after⟩ ⟨hw, hafter⟩ hv
    have htext : Element.text ⟨w, v, after⟩ ++ jsonSpace r = w ++ (v ++ (after ++ jsonSpace r)) := by
      simp [Element.text]
    rw [htext, ← hr] at h
    exact h
  | arrayEnd hq => exact fun e he hv => .last he hv hq
  | @arrayComma r _ ih =>
    intro e he hv
    obtain ⟨w, hw, hr⟩ := exists_jsonSpace r
    have h := ih w hw
    rw [← hr] at h
    exact .cons he hv h

/-- Members derived by the grammar complete the state before a key. -/
lemma completes_members {ms : List Member} {q : Bytes} (hne : ms ≠ []) (hf : ∀ m ∈ ms, m.Framed)
    (hv : ∀ m ∈ ms, Value m.value) (hq : K q) :
    Completes K .objectKey (jsonSpace (commas (ms.map Member.text) ++ ch '}' :: q)) := by
  have hmember : ∀ {m : Member} {tail : Bytes}, m.Framed → Value m.value → Lead tail →
      Completes K .objectEnd tail → Completes K .objectKey (jsonSpace (m.text ++ tail)) := by
    intro m tail hm hv hlead h
    have htext : m.text ++ tail = m.before ++ (m.key ++ (m.beforeColon ++
        ch ':' :: (m.afterColon ++ (m.value ++ (m.after ++ tail))))) := by simp [Member.text]
    rw [htext, jsonSpace_append hm.before (hm.key.lead)]
    refine .objectKey hm.key ?_
    rw [jsonSpace_append hm.beforeColon (lead_cons _ (by decide))]
    refine .objectColon ?_
    rw [jsonSpace_append hm.afterColon (hv.lead)]
    refine .objectValue hv ?_
    rw [jsonSpace_append hm.after hlead]
    exact h
  induction ms with
  | nil => exact absurd rfl hne
  | cons m ms ih =>
    have hm := hf m List.mem_cons_self
    have hvm := hv m List.mem_cons_self
    cases ms with
    | nil =>
      rw [List.map_singleton, commas_singleton]
      exact hmember hm hvm (lead_cons _ (by decide)) (.objectEnd hq)
    | cons m' ms =>
      have htail : (m' :: ms).map Member.text ≠ [] := List.cons_ne_nil _ _
      rw [List.map_cons, commas_cons _ htail, List.append_assoc, List.cons_append]
      refine hmember hm hvm (lead_cons _ (by decide)) (.objectComma ?_)
      exact ih (List.cons_ne_nil _ _) (fun m h => hf m (List.mem_cons_of_mem _ h))
        fun m h => hv m (List.mem_cons_of_mem _ h)

lemma completes_elements {es : List Element} {q : Bytes} (hne : es ≠ []) (hf : ∀ e ∈ es, e.Framed)
    (hv : ∀ e ∈ es, Value e.value) (hq : K q) :
    Completes K .arrayValue (jsonSpace (commas (es.map Element.text) ++ ch ']' :: q)) := by
  have helement : ∀ {e : Element} {tail : Bytes}, e.Framed → Value e.value → Lead tail →
      Completes K .arrayEnd tail → Completes K .arrayValue (jsonSpace (e.text ++ tail)) := by
    intro e tail he hv hlead h
    have htext : e.text ++ tail = e.before ++ (e.value ++ (e.after ++ tail)) := by
      simp [Element.text]
    rw [htext, jsonSpace_append he.before (hv.lead)]
    refine .arrayValue hv ?_
    rw [jsonSpace_append he.after hlead]
    exact h
  induction es with
  | nil => exact absurd rfl hne
  | cons e es ih =>
    have he := hf e List.mem_cons_self
    have hve := hv e List.mem_cons_self
    cases es with
    | nil =>
      rw [List.map_singleton, commas_singleton]
      exact helement he hve (lead_cons _ (by decide)) (.arrayEnd hq)
    | cons e' es =>
      have htail : (e' :: es).map Element.text ≠ [] := List.cons_ne_nil _ _
      rw [List.map_cons, commas_cons _ htail, List.append_assoc, List.cons_append]
      refine helement he hve (lead_cons _ (by decide)) (.arrayComma ?_)
      exact ih (List.cons_ne_nil _ _) (fun e h => hf e (List.mem_cons_of_mem _ h))
        fun e h => hv e (List.mem_cons_of_mem _ h)

/-- **A value that starts with a brace** is what completes an object. -/
lemma completes_object_iff {p : Bytes} : (∃ v r, Value v ∧ ch '{' :: p = v ++ r ∧ K r) ↔
    Completes K .objectFirst (jsonSpace p) := by
  constructor
  · rintro ⟨v, r, hv, hp, hr⟩
    cases hv with
    | string h =>
      obtain ⟨b, -, rfl⟩ := h
      exact absurd (List.cons.inj hp).1 (by decide)
    | number h =>
      obtain ⟨c, s', rfl, hc⟩ := h.exists_cons
      obtain rfl := (List.cons.inj hp).1
      exact absurd hc (by decide)
    | literal h => rcases h with rfl | rfl | rfl <;> exact absurd (List.cons.inj hp).1 (by decide)
    | @emptyObject w hw =>
      have hp' : p = w ++ ch '}' :: r := by simpa using hp
      rw [hp', jsonSpace_append hw (lead_cons _ (by decide))]
      exact .objectClose hr
    | @object ms hne hf hv =>
      have hp' : p = commas (ms.map Member.text) ++ ch '}' :: r := by simpa using hp
      rw [hp']
      exact .objectFirst (completes_members hne hf hv hr)
    | emptyArray => exact absurd (List.cons.inj hp).1 (by decide)
    | array => exact absurd (List.cons.inj hp).1 (by decide)
  · intro h
    obtain ⟨w, hw, hp⟩ := exists_jsonSpace p
    have hwraps := h.wraps w hw
    rw [← hp] at hwraps
    exact hwraps

/-- **A value that starts with a bracket** is what completes an array. -/
lemma completes_array_iff {p : Bytes} : (∃ v r, Value v ∧ ch '[' :: p = v ++ r ∧ K r) ↔
    Completes K .arrayFirst (jsonSpace p) := by
  constructor
  · rintro ⟨v, r, hv, hp, hr⟩
    cases hv with
    | string h =>
      obtain ⟨b, -, rfl⟩ := h
      exact absurd (List.cons.inj hp).1 (by decide)
    | number h =>
      obtain ⟨c, s', rfl, hc⟩ := h.exists_cons
      obtain rfl := (List.cons.inj hp).1
      exact absurd hc (by decide)
    | literal h => rcases h with rfl | rfl | rfl <;> exact absurd (List.cons.inj hp).1 (by decide)
    | emptyObject => exact absurd (List.cons.inj hp).1 (by decide)
    | object => exact absurd (List.cons.inj hp).1 (by decide)
    | @emptyArray w hw =>
      have hp' : p = w ++ ch ']' :: r := by simpa using hp
      rw [hp', jsonSpace_append hw (lead_cons _ (by decide))]
      exact .arrayClose hr
    | @array es hne hf hv =>
      have hp' : p = commas (es.map Element.text) ++ ch ']' :: r := by simpa using hp
      rw [hp']
      exact .arrayFirst (completes_elements hne hf hv hr)
  · intro h
    obtain ⟨w, hw, hp⟩ := exists_jsonSpace p
    have hwraps := h.wraps w hw
    rw [← hp] at hwraps
    exact hwraps

end

/-! ### Each state -/

section

variable {K : Bytes → Prop} {x q : Bytes}

lemma completes_objectKey : Completes K .objectKey x ↔
    ∃ k r, IsString k ∧ x = k ++ r ∧ Completes K .objectColon (jsonSpace r) := by
  constructor
  · intro h
    cases h with
    | objectKey hk h => exact ⟨_, _, hk, rfl, h⟩
  · rintro ⟨k, r, hk, rfl, h⟩
    exact .objectKey hk h

lemma completes_value {s : State} (hs : s = .rootValue ∨ s = .objectValue ∨ s = .arrayValue) :
    Completes K s x ↔
      ∃ v r, Value v ∧ x = v ++ r ∧ Completes K s.afterValue (jsonSpace r) := by
  constructor
  · intro h
    rcases hs with rfl | rfl | rfl <;> cases h <;> exact ⟨_, _, ‹_›, rfl, ‹_›⟩
  · rintro ⟨v, r, hv, rfl, h⟩
    rcases hs with rfl | rfl | rfl
    · exact .rootValue hv h
    · exact .objectValue hv h
    · exact .arrayValue hv h

lemma completes_objectColon : Completes K .objectColon x ↔
    ∃ r, x = ch ':' :: r ∧ Completes K .objectValue (jsonSpace r) := by
  constructor
  · intro h
    cases h with
    | objectColon h => exact ⟨_, rfl, h⟩
  · rintro ⟨r, rfl, h⟩
    exact .objectColon h

lemma completes_objectEnd (hx : cur x ≠ ch '}') : Completes K .objectEnd x ↔
    ∃ r, x = ch ',' :: r ∧ Completes K .objectKey (jsonSpace r) := by
  constructor
  · intro h
    cases h with
    | objectEnd h => exact absurd rfl hx
    | objectComma h => exact ⟨_, rfl, h⟩
  · rintro ⟨r, rfl, h⟩
    exact .objectComma h

lemma completes_arrayEnd (hx : cur x ≠ ch ']') : Completes K .arrayEnd x ↔
    ∃ r, x = ch ',' :: r ∧ Completes K .arrayValue (jsonSpace r) := by
  constructor
  · intro h
    cases h with
    | arrayEnd h => exact absurd rfl hx
    | arrayComma h => exact ⟨_, rfl, h⟩
  · rintro ⟨r, rfl, h⟩
    exact .arrayComma h

lemma completes_objectFirst (hx : cur x ≠ ch '}') :
    Completes K .objectFirst x ↔ Completes K .objectKey x := by
  constructor
  · intro h
    cases h with
    | objectClose h => exact absurd rfl hx
    | objectFirst h => exact h
  · exact .objectFirst

lemma completes_arrayFirst (hx : cur x ≠ ch ']') :
    Completes K .arrayFirst x ↔ Completes K .arrayValue x := by
  constructor
  · intro h
    cases h with
    | arrayClose h => exact absurd rfl hx
    | arrayFirst h => exact h
  · exact .arrayFirst

lemma completes_objectEnd_close : Completes K .objectEnd (ch '}' :: q) ↔ K q := by
  constructor
  · intro h
    cases h with
    | objectEnd h => exact h
  · exact .objectEnd

lemma completes_arrayEnd_close : Completes K .arrayEnd (ch ']' :: q) ↔ K q := by
  constructor
  · intro h
    cases h with
    | arrayEnd h => exact h
  · exact .arrayEnd

/-- A key does not start with a brace. -/
lemma completes_objectFirst_close : Completes K .objectFirst (ch '}' :: q) ↔ K q := by
  constructor
  · intro h
    generalize hx : ch '}' :: q = x at h
    cases h with
    | objectClose h => exact (List.cons.inj hx).2 ▸ h
    | objectFirst h =>
      obtain ⟨k, r, ⟨b, -, rfl⟩, hk, -⟩ := completes_objectKey.1 h
      exact absurd (List.cons.inj (hx.trans hk)).1 (by decide)
  · exact .objectClose

/-- A value does not start with a closing bracket. -/
lemma completes_arrayFirst_close : Completes K .arrayFirst (ch ']' :: q) ↔ K q := by
  constructor
  · intro h
    generalize hx : ch ']' :: q = x at h
    cases h with
    | arrayClose h => exact (List.cons.inj hx).2 ▸ h
    | arrayFirst h =>
      obtain ⟨v, r, hv, hp, -⟩ := (completes_value (.inr (.inr rfl))).1 h
      exact absurd (hv.start (hx.trans hp)) (by decide)
  · exact .arrayClose

end

/-- What comes after a value does not go on with a number. -/
lemma Completes.numberEnd {K : Bytes → Prop} {s : State} {r : Bytes}
    (h : Completes K s.afterValue (jsonSpace r)) : NumberEnd r := by
  have hclose : ∀ d ∈ (jsonSpace r).head?, d = ch '}' ∨ d = ch ']' ∨ d = ch ',' := by
    intro d hd
    generalize jsonSpace r = x at h hd
    cases s <;> cases h
    all_goals first
      | rw [← Option.some.inj hd]; decide
      | exact absurd hd (by simp)
  have hhead : ∀ d ∈ r.head?, isWhitespace d = true ∨ d = ch '}' ∨ d = ch ']' ∨ d = ch ',' := by
    intro d hd
    obtain ⟨w, hw, hr⟩ := exists_jsonSpace r
    cases w with
    | nil =>
      rw [hr] at hd
      exact .inr (hclose d hd)
    | cons a w =>
      rw [hr] at hd
      obtain rfl := Option.some.inj hd
      exact .inl (hw a List.mem_cons_self)
  have hall : ∀ d, (isWhitespace d = true ∨ d = ch '}' ∨ d = ch ']' ∨ d = ch ',') →
      isDigit d = false ∧ d ≠ ch '.' ∧ d ≠ ch 'e' ∧ d ≠ ch 'E' := by
    intro d hd
    simp only [isWhitespace, isDigit, ch, Bool.or_eq_true, decide_eq_true_eq] at hd ⊢
    grind
  exact ⟨fun d hd => (hall d (hhead d hd)).1, fun d hd => (hall d (hhead d hd)).2⟩

/-! ### Documents -/

/-- What the root state asks for, of a text after its byte order mark. -/
lemma completes_rootValue_iff {p : Bytes} {K : Bytes → Prop} :
    Completes K .rootValue (jsonSpace p) ↔ ∃ before v after, Whitespace before ∧ Value v ∧
      Whitespace after ∧ p = before ++ v ++ after := by
  rw [completes_value (.inl rfl)]
  constructor
  · rintro ⟨v, r, hv, hp, hr⟩
    obtain ⟨before, hbefore, hsplit⟩ := exists_jsonSpace p
    obtain ⟨after, hafter, hr'⟩ := exists_jsonSpace r
    have hnil : jsonSpace r = [] := by
      change Completes K .rootEnd (jsonSpace r) at hr
      generalize jsonSpace r = x at hr
      cases hr
      rfl
    rw [hnil, List.append_nil] at hr'
    exact ⟨before, v, after, hbefore, hv, hafter, by rw [hsplit, hp, ← hr', List.append_assoc]⟩
  · rintro ⟨before, v, after, hbefore, hv, hafter, rfl⟩
    have hnil : jsonSpace after = [] := by
      have h := jsonSpace_append hafter (fun c hc => absurd hc (by simp) : Lead [])
      rwa [List.append_nil] at h
    refine ⟨v, after, hv, ?_, hnil ▸ .rootEnd⟩
    rw [List.append_assoc, jsonSpace_append hbefore hv.lead]

/-- The content of a document starts with its value. -/
lemma jsonContent_append {mark before v after : Bytes}
    (hmark : mark = [] ∨ mark = [0xef, 0xbb, 0xbf]) (hbefore : Whitespace before) (hv : Value v) :
    jsonContent (mark ++ before ++ v ++ after) = v ++ after := by
  unfold jsonContent
  rcases hmark with rfl | rfl
  · rw [if_neg, List.nil_append, List.append_assoc, jsonSpace_append hbefore hv.lead]
    rw [List.isPrefixOf_iff_prefix]
    rintro ⟨t, ht⟩
    rw [List.nil_append, List.append_assoc] at ht
    cases before with
    | nil => exact absurd (hv.start ht) (by decide)
    | cons c before =>
      obtain rfl := (List.cons.inj ht).1
      exact absurd (hbefore _ List.mem_cons_self) (by decide)
  · rw [List.append_assoc, List.append_assoc,
      if_pos (List.isPrefixOf_iff_prefix.2 (List.prefix_append _ _))]
    exact jsonSpace_append hbefore hv.lead

/-- A document, by its content after the byte order mark. -/
lemma document_iff (text : Bytes) {K : Bytes → Prop} :
    Document text ↔ Completes K .rootValue (jsonContent text) := by
  constructor
  · rintro ⟨mark, before, v, after, hmark, hbefore, hv, hafter, rfl⟩
    rw [jsonContent_append hmark hbefore hv, ← jsonSpace_eq_self hv.lead, completes_rootValue_iff]
    exact ⟨[], v, after, fun c hc => absurd hc List.not_mem_nil, hv, hafter, rfl⟩
  unfold jsonContent
  rw [completes_rootValue_iff]
  rintro ⟨before, v, after, hbefore, hv, hafter, hp⟩
  split_ifs at hp with hmark
  · obtain ⟨t, rfl⟩ := List.isPrefixOf_iff_prefix.1 hmark
    refine ⟨_, before, v, after, .inr rfl, hbefore, hv, hafter, ?_⟩
    rw [List.append_assoc, List.append_assoc, ← List.append_assoc before, ← hp]
    rfl
  · exact ⟨[], before, v, after, .inl rfl, hbefore, hv, hafter, hp⟩

end Wpm.JsonInput
