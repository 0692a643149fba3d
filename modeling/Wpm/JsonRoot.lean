import Wpm.JsonCompletes
import Wpm.JsonStrings

/-!
The fields of a document whose root is an object.

`wpm_json_field` gives the first member of a name and `wpm_json_unique_field` the only one. A name
is what a key stands for: it does not matter how the key is written, and the members of nested
values are passed over with their values.
-/

namespace Wpm.JsonInput

open Wpm.Lib.CString Wpm.Lib.Json

/-- The loop of `wpm_json_unique_field`. -/
def jsonUniqueFieldFrom (name : Bytes) : ℕ → Option Bytes → Bytes → Option Bytes
  | 0, _, _ => none
  | fuel + 1, result, p =>
    let p := jsonSpace p
    if cur p = 0 ∨ cur p = ch '}' then if cur p = ch '}' then result else none
    else do
      let (key, p) ← readKey 128 p
      let p := jsonSpace p
      if cur p ≠ ch ':' then none
      else
        let p := jsonSpace p.tail
        if key = name ∧ result.isSome = true then none
        else
          let result := if key = name then some p else result
          if (valueEnd p).2 = false then none
          else
            let p := jsonSpace (valueEnd p).1
            if cur p ≠ ch ',' then if cur p = ch '}' then result else none
            else jsonUniqueFieldFrom name fuel result p.tail

/-- `wpm_json_unique_field`: the pointer to the value of the only root field `name`. -/
def jsonUniqueField (document name : Bytes) : Option Bytes :=
  let p := jsonContent document
  if cur p ≠ ch '{' then none else jsonUniqueFieldFrom name p.length none p.tail

/-! ### What is to be found -/

/-- A document whose root is an object with these members, and the white space after it. -/
def RootObject (ms : List Member) (after text : Bytes) : Prop := ∃ mark before v,
  (mark = [] ∨ mark = [0xef, 0xbb, 0xbf]) ∧ Whitespace before ∧ IsObject ms v ∧ Whitespace after ∧
    text = mark ++ before ++ v ++ after

/-- The text of a document from the value of a member on. -/
def fromValue (m : Member) (behind : List Member) (after : Bytes) : Bytes :=
  m.value ++ (m.after ++ closing (ch '}') (behind.map Member.text) after)

/-- **The first value** of a name: the pointer to it, or none where no member has the name. -/
structure FirstValue (wanted : Bytes) (ms : List Member) (after : Bytes) (p : Option Bytes) :
    Prop where
  found : ∀ front m behind, ms = front ++ m :: behind → StringIs m.key wanted →
    (∀ m' ∈ front, ¬StringIs m'.key wanted) → p = some (fromValue m behind after)
  missing : (∀ m ∈ ms, ¬StringIs m.key wanted) → p = none

/-- **The only value** of a name: the pointer to it, or none where no member has the name, or
several have. -/
structure OnlyValue (wanted : Bytes) (ms : List Member) (after : Bytes) (p : Option Bytes) :
    Prop where
  found : ∀ front m behind, ms = front ++ m :: behind → StringIs m.key wanted →
    (∀ m' ∈ front ++ behind, ¬StringIs m'.key wanted) → p = some (fromValue m behind after)
  missing : (¬∃ front m behind, ms = front ++ m :: behind ∧ StringIs m.key wanted ∧
    ∀ m' ∈ front ++ behind, ¬StringIs m'.key wanted) → p = none

/-! ### The first field -/

lemma cur_value_append {v : Bytes} (hv : Value v) (r : Bytes) : cur (v ++ r) = cur v := by
  obtain ⟨c, v', rfl, -⟩ := hv.exists_cons
  rfl

/-- **A field of a document** is the value of the first member with its name. -/
lemma jsonField_append {mark space v rest wanted : Bytes} {m : Member}
    {before after : List Member} (hmark : mark = [] ∨ mark = [0xef, 0xbb, 0xbf])
    (hspace : Whitespace space)
    (h : IsObject (before ++ m :: after) v) (hbefore : ∀ m' ∈ before, keyOf m'.key ≠ wanted)
    (hm : keyOf m.key = wanted) (hsize : (mark ++ space ++ v ++ rest).length ≤ sizeMax) :
    jsonField (mark ++ space ++ v ++ rest) wanted =
      some (m.value ++ (m.after ++ closing (ch '}') (after.map Member.text) rest)) := by
  obtain ⟨w, -, hempty, htext⟩ := h.exists_opened rest
  obtain rfl := hempty (by simp)
  have hopened := length_opened (ch '}') ((before ++ m :: after).map Member.text) rest
  have hcur : cur (v ++ rest) = ch '{' := (cur_value_append h.isValue rest).trans h.cur_eq
  have hle := congrArg List.length htext
  rw [List.length_map, List.length_append, List.length_cons] at hopened
  simp only [List.length_append, List.length_cons, List.length_nil] at hsize hle
  rw [jsonField, jsonContent_append hmark hspace h.isValue]
  simp only [hcur, ne_eq, not_true_eq_false, if_false]
  rw [htext, List.tail_cons, List.nil_append, List.length_cons]
  exact jsonFieldFrom_append hm (fun m' h' => ⟨h.framed m' h', h.value m' h'⟩) hbefore (by omega)
    (by omega)

lemma jsonField_eq_none {mark space v rest wanted : Bytes} {ms : List Member}
    (hmark : mark = [] ∨ mark = [0xef, 0xbb, 0xbf]) (hspace : Whitespace space)
    (h : IsObject ms v) (hms : ∀ m ∈ ms, keyOf m.key ≠ wanted)
    (hsize : (mark ++ space ++ v ++ rest).length ≤ sizeMax) :
    jsonField (mark ++ space ++ v ++ rest) wanted = none := by
  obtain ⟨w, hw, hempty, htext⟩ := h.exists_opened rest
  have hcur : cur (v ++ rest) = ch '{' := (cur_value_append h.isValue rest).trans h.cur_eq
  have hle := congrArg List.length htext
  simp only [List.length_append, List.length_cons] at hsize hle
  rw [jsonField, jsonContent_append hmark hspace h.isValue]
  simp only [hcur, ne_eq, not_true_eq_false, if_false]
  rw [htext, List.tail_cons, List.length_cons]
  cases ms with
  | nil =>
    have hspace : jsonSpace (w ++ ch '}' :: rest) = ch '}' :: rest :=
      jsonSpace_append hw (lead_cons _ (by decide))
    rw [List.map_nil, opened, jsonFieldFrom, hspace]
    exact if_pos (.inr rfl)
  | cons m ms =>
    obtain rfl := hempty (List.cons_ne_nil m ms)
    exact jsonFieldFrom_eq_none (fun m' h' => ⟨h.framed m' h', h.value m' h'⟩) hms (by omega)

/-! ### The only field -/

/-- What the loop of `wpm_json_unique_field` comes to on the members that are left. -/
def uniqueOf (name after : Bytes) : Option Bytes → List Member → Option Bytes
  | result, [] => result
  | result, m :: ms =>
    if nameIn 128 m.key = name then
      if result.isSome = true then none else uniqueOf name after (some (fromValue m ms after)) ms
    else uniqueOf name after result ms

lemma uniqueOf_other {name after : Bytes} : ∀ {result : Option Bytes} {ms : List Member},
    (∀ m ∈ ms, nameIn 128 m.key ≠ name) → uniqueOf name after result ms = result
  | _, [], _ => rfl
  | _, m :: ms, h => by
    rw [uniqueOf, if_neg (h m List.mem_cons_self),
      uniqueOf_other fun m' hm' => h m' (List.mem_cons_of_mem m hm')]

lemma uniqueOf_again {name after p : Bytes} : ∀ {ms : List Member},
    (∃ m ∈ ms, nameIn 128 m.key = name) → uniqueOf name after (some p) ms = none
  | [], h => by simp at h
  | m :: ms, h => by
    rw [uniqueOf]
    by_cases hm : nameIn 128 m.key = name
    · rw [if_pos hm]
      rfl
    · rw [if_neg hm]
      refine uniqueOf_again ?_
      obtain ⟨m', hm', hname⟩ := h
      rcases List.mem_cons.1 hm' with rfl | hm'
      · exact absurd hname hm
      · exact ⟨m', hm', hname⟩

/-- The members in front of the first one of a name make no difference. -/
lemma uniqueOf_append {name after : Bytes} {m : Member} {behind : List Member}
    (hm : nameIn 128 m.key = name) : ∀ {front : List Member},
    (∀ m' ∈ front, nameIn 128 m'.key ≠ name) → uniqueOf name after none (front ++ m :: behind) =
      uniqueOf name after (some (fromValue m behind after)) behind
  | [], _ => by rw [List.nil_append, uniqueOf, if_pos hm, if_neg (by simp)]
  | m' :: front, h => by
    rw [List.cons_append, uniqueOf, if_neg (h m' List.mem_cons_self),
      uniqueOf_append hm fun m'' hm'' => h m'' (List.mem_cons_of_mem m' hm'')]

/-- The loop is at the start of a member, or at the brace that closes the object. -/
lemma jsonUniqueFieldFrom_eq {name q : Bytes} : ∀ {ms : List Member} {fuel : ℕ}
    {result : Option Bytes}, (∀ m ∈ ms, m.Framed ∧ Value m.value) →
    (opened (ch '}') (ms.map Member.text) q).length ≤ sizeMax → ms.length < fuel →
    jsonUniqueFieldFrom name fuel result (opened (ch '}') (ms.map Member.text) q) =
      uniqueOf name q result ms
  | _, 0, _, _, _, hfuel => absurd hfuel (Nat.not_lt_zero _)
  | [], fuel + 1, result, _, _, _ => by
    have hlead : Lead (ch '}' :: q) := lead_cons _ (by decide)
    rw [List.map_nil, opened, jsonUniqueFieldFrom, jsonSpace_eq_self hlead, uniqueOf]
    exact (if_pos (.inr rfl)).trans (if_pos rfl)
  | m :: ms, fuel + 1, result, hms, hsize, hfuel => by
    obtain ⟨hframed, hv⟩ := hms m List.mem_cons_self
    change (m.text ++ closing (ch '}') (ms.map Member.text) q).length ≤ sizeMax at hsize
    obtain ⟨hcur, p, hkey, hcolon⟩ := readKey_member_in 128 hframed hsize
    have hstop : ¬(ch '"' = 0 ∨ ch '"' = ch '}') := by decide
    have hvalue : jsonSpace (m.afterColon ++ (m.value ++ (m.after ++
        closing (ch '}') (ms.map Member.text) q))) = fromValue m ms q :=
      jsonSpace_append hframed.afterColon hv.lead
    have hend := @valueEnd_closing _ (.inl rfl) [] m.value m.after
      (fun c hc => absurd hc List.not_mem_nil) hv hframed.after (ms.map Member.text) q
    rw [List.nil_append] at hend
    change valueEnd (fromValue m ms q) = _ at hend
    have hafter : jsonSpace (closing (ch '}') (ms.map Member.text) q) =
        closing (ch '}') (ms.map Member.text) q := jsonSpace_eq_self (lead_closing (by decide) _ q)
    -- the turns that are left, with what this one has found
    have hrest : ∀ result', (if cur (closing (ch '}') (ms.map Member.text) q) ≠ ch ',' then
        if cur (closing (ch '}') (ms.map Member.text) q) = ch '}' then result' else none
        else jsonUniqueFieldFrom name fuel result'
          (closing (ch '}') (ms.map Member.text) q).tail) = uniqueOf name q result' ms := by
      intro result'
      cases ms with
      | nil =>
        rw [List.map_nil, closing, cur_cons, if_pos (by decide), if_pos rfl, uniqueOf]
      | cons m' ms =>
        rw [List.map_cons, closing, List.length_append, List.length_cons] at hsize
        rw [List.map_cons, closing, cur_cons, if_neg (by decide), List.tail_cons]
        refine @jsonUniqueFieldFrom_eq name q (m' :: ms) fuel result'
          (fun m'' h => hms m'' (List.mem_cons_of_mem m h)) ?_ (Nat.lt_of_succ_lt_succ hfuel)
        rw [List.map_cons, opened]
        omega
    rw [List.map_cons, opened, jsonUniqueFieldFrom, uniqueOf]
    simp only [hcur, if_neg hstop, hkey, Option.bind_eq_bind, Option.bind_some, hcolon, cur_cons,
      ne_eq, not_true_eq_false, if_false, List.tail_cons, hvalue, hend, hafter, Bool.true_eq_false]
    simp only [ne_eq] at hrest
    simp only [hrest]
    by_cases hm : nameIn 128 m.key = name
    · simp only [hm, true_and, if_true]
    · simp only [hm, false_and, if_false]

/-- The content of a document from the brace of its root on. -/
lemma RootObject.exists_content {ms : List Member} {after text : Bytes}
    (h : RootObject ms after text) : ∃ w, Whitespace w ∧ (ms ≠ [] → w = []) ∧
      jsonContent text = ch '{' :: (w ++ opened (ch '}') (ms.map Member.text) after) ∧
      (jsonContent text).length ≤ text.length := by
  obtain ⟨mark, before, v, hmark, hbefore, hobject, -, rfl⟩ := h
  obtain ⟨w, hw, hempty, htext⟩ := hobject.exists_opened after
  rw [jsonContent_append hmark hbefore hobject.isValue]
  refine ⟨w, hw, hempty, htext, ?_⟩
  simp only [List.length_append]
  omega

/-- **The unique field** of a document. -/
lemma jsonUniqueField_eq {ms : List Member} {after text name : Bytes} (h : RootObject ms after text)
    (hsize : text.length ≤ sizeMax) : jsonUniqueField text name = uniqueOf name after none ms := by
  obtain ⟨w, hw, hempty, hcontent, hle⟩ := h.exists_content
  obtain ⟨-, -, v, -, -, hobject, -, -⟩ := h
  have hlength := congrArg List.length hcontent
  rw [List.length_cons, List.length_append] at hlength
  have hopened := length_opened (ch '}') (ms.map Member.text) after
  rw [List.length_map] at hopened
  have hms := fun m hm => And.intro (hobject.framed m hm) (hobject.value m hm)
  rw [jsonUniqueField, hcontent]
  simp only [cur_cons, ne_eq, not_true_eq_false, if_false, List.tail_cons, List.length_cons,
    List.length_append]
  cases ms with
  | nil =>
    have hspace : jsonSpace (w ++ ch '}' :: after) = ch '}' :: after :=
      jsonSpace_append hw (lead_cons _ (by decide))
    rw [List.map_nil, opened, jsonUniqueFieldFrom, hspace, uniqueOf]
    exact (if_pos (.inr rfl)).trans (if_pos rfl)
  | cons m ms =>
    obtain rfl := hempty (List.cons_ne_nil m ms)
    rw [List.nil_append]
    exact jsonUniqueFieldFrom_eq hms (by omega) (by rw [List.length_nil]; omega)

/-! ### The names -/

lemma nameIn_eq_iff_stringIs {size : ℕ} (hsize : size ≤ sizeMax) {wanted k : Bytes}
    (hne : wanted ≠ []) (hzero : 0 ∉ wanted) (hlen : wanted.length < size) (hk : IsString k) :
    nameIn size k = wanted ↔ StringIs k wanted := by
  rw [nameIn_eq_iff hsize hne hlen, stringOf_iff (by decide) hk]
  exact ⟨fun h => h.1, fun h => ⟨h, hzero, hlen.trans_le hsize⟩⟩

/-- **A root field** is the value of the first member whose key stands for its name. -/
lemma RootObject.jsonField_of_first {front behind : List Member} {m : Member}
    {after text wanted : Bytes} (h : RootObject (front ++ m :: behind) after text)
    (hsize : text.length ≤ sizeMax) (hne : wanted ≠ []) (hzero : 0 ∉ wanted)
    (hlen : wanted.length < 32) (hm : StringIs m.key wanted)
    (hfront : ∀ m' ∈ front, ¬StringIs m'.key wanted) :
    jsonField text wanted = some (fromValue m behind after) := by
  obtain ⟨mark, before, v, hmark, hbefore, hobject, -, rfl⟩ := h
  have hname : ∀ m' ∈ front ++ m :: behind, keyOf m'.key = wanted ↔ StringIs m'.key wanted :=
    fun m' hm' => nameIn_eq_iff_stringIs (by decide) hne hzero hlen (hobject.framed m' hm').key
  refine jsonField_append hmark hbefore hobject (fun m' hm' => ?_) ((hname m (by simp)).2 hm) hsize
  exact mt (hname m' (List.mem_append_left _ hm')).1 (hfront m' hm')

/-- There is no root field that no member is named after. -/
lemma RootObject.jsonField_of_none {ms : List Member} {after text wanted : Bytes}
    (h : RootObject ms after text) (hsize : text.length ≤ sizeMax) (hne : wanted ≠ [])
    (hzero : 0 ∉ wanted) (hlen : wanted.length < 32) (hms : ∀ m ∈ ms, ¬StringIs m.key wanted) :
    jsonField text wanted = none := by
  obtain ⟨mark, before, v, hmark, hbefore, hobject, -, rfl⟩ := h
  refine jsonField_eq_none hmark hbefore hobject (fun m hm => ?_) hsize
  exact mt (nameIn_eq_iff_stringIs (by decide) hne hzero hlen (hobject.framed m hm).key).1 (hms m hm)

/-- **Root fields are found by what their keys stand for**, the first one and the only one. -/
theorem rootFields {ms : List Member} {after text wanted : Bytes} (h : RootObject ms after text)
    (hsize : text.length ≤ sizeMax) (hne : wanted ≠ []) (hzero : 0 ∉ wanted) :
    (wanted.length < 32 → FirstValue wanted ms after (jsonField text wanted)) ∧
      (wanted.length < 128 → OnlyValue wanted ms after (jsonUniqueField text wanted)) := by
  have hunique := @jsonUniqueField_eq _ _ _ wanted h hsize
  obtain ⟨mark, before, v, hmark, hbefore, hobject, -, rfl⟩ := h
  constructor
  · intro hlen
    have hname : ∀ m ∈ ms, keyOf m.key = wanted ↔ StringIs m.key wanted := fun m hm =>
      nameIn_eq_iff_stringIs (by decide) hne hzero hlen (hobject.framed m hm).key
    constructor
    · rintro front m behind rfl hm hfront
      have hm' := (hname m (by simp)).2 hm
      exact jsonField_append hmark hbefore hobject
        (fun m' h' => mt (hname m' (List.mem_append_left _ h')).1 (hfront m' h')) hm' hsize
    · intro hms
      exact jsonField_eq_none hmark hbefore hobject (fun m hm => mt (hname m hm).1 (hms m hm)) hsize
  · intro hlen
    have hname : ∀ m ∈ ms, nameIn 128 m.key = wanted ↔ StringIs m.key wanted := fun m hm =>
      nameIn_eq_iff_stringIs (by decide) hne hzero hlen (hobject.framed m hm).key
    rw [hunique]
    constructor
    · rintro front m behind rfl hm hothers
      have hm' := (hname m (by simp)).2 hm
      rw [uniqueOf_append hm' fun m' h' => mt (hname m' (List.mem_append_left _ h')).1
        (hothers m' (List.mem_append_left _ h'))]
      exact uniqueOf_other fun m' h' => mt (hname m' (by simp [h'])).1
        (hothers m' (List.mem_append_right _ h'))
    · intro hnone
      cases hfind : ms.find? fun m => nameIn 128 m.key = wanted with
      | none =>
        exact uniqueOf_other fun m hm => by simpa using List.find?_eq_none.1 hfind m hm
      | some m =>
        obtain ⟨hm, front, behind, rfl, hfront⟩ := List.find?_eq_some_iff_append.1 hfind
        have hfront : ∀ m' ∈ front, nameIn 128 m'.key ≠ wanted := by simpa using hfront
        rw [uniqueOf_append (of_decide_eq_true hm) hfront]
        refine uniqueOf_again (by_contra fun hbehind => hnone ⟨front, m, behind, rfl, ?_, ?_⟩)
        · exact (hname m (by simp)).1 (of_decide_eq_true hm)
        · intro m' hm' his
          rcases List.mem_append.1 hm' with h' | h'
          · exact hfront m' h' ((hname m' (by simp [h'])).2 his)
          · exact hbehind ⟨m', h', (hname m' (by simp [h'])).2 his⟩

/-- A member whose key is written with an escape. -/
def sampleMember : Member := ⟨[], str "\"\\u0061\"", [], str " ", str "1", []⟩

/-- Two members of one name around another one. -/
def sampleMembers : List Member :=
  [sampleMember, ⟨str " ", str "\"b\"", [], [], str "1", []⟩,
    ⟨[], str "\"a\"", [], [], str "1", str " "⟩]

lemma rootObject_sample :
    RootObject sampleMembers [] (str "\x7b\"\\u0061\": 1, \"b\":1,\"a\":1 \x7d") := by
  have hescape : IsString (str "\"\\u0061\"") :=
    ⟨_, .cons (.unicode (h := str "0061") (n := 0x61) (by decide) ⟨[0, 0, 6, 1], by decide, by decide⟩
      (.inl (by decide))) .nil, by decide⟩
  have hplain : ∀ c : UInt8, 0x20 ≤ c → c ≠ ch '"' → c ≠ ch '\\' → IsString [ch '"', c, ch '"'] :=
    fun c hc hquote hback => ⟨_, .cons (.raw hc hquote hback) .nil, rfl⟩
  have hnumber : Value (str "1") := .number
    ⟨[], str "1", [], [], .inl rfl, .digits (by decide) (by decide) (by simp), .none, .none, by decide⟩
  have hnone : Whitespace [] := fun c hc => absurd hc List.not_mem_nil
  have hblank : Whitespace (str " ") := forall_mem_of_all (by decide)
  refine ⟨[], [], _, .inl rfl, hnone, ⟨?_, ?_, _, .inr ⟨by simp [sampleMembers], rfl⟩, rfl⟩, hnone,
    by decide⟩
  · refine List.forall_mem_cons.2 ⟨?_, List.forall_mem_cons.2 ⟨?_, List.forall_mem_singleton.2 ?_⟩⟩
    · exact ⟨hnone, hescape, hnone, hblank, hnone⟩
    · exact ⟨hblank, hplain _ (by decide) (by decide) (by decide), hnone, hnone, hnone⟩
    · exact ⟨hnone, hplain _ (by decide) (by decide) (by decide), hnone, hnone, hblank⟩
  · refine List.forall_mem_cons.2 ⟨hnumber, List.forall_mem_cons.2 ⟨hnumber, ?_⟩⟩
    exact List.forall_mem_singleton.2 hnumber

theorem rootFields_sample :
    FirstValue (str "a") sampleMembers []
        (jsonField (str "\x7b\"\\u0061\": 1, \"b\":1,\"a\":1 \x7d") (str "a")) ∧
      OnlyValue (str "a") sampleMembers []
        (jsonUniqueField (str "\x7b\"\\u0061\": 1, \"b\":1,\"a\":1 \x7d") (str "a")) := by
  have h := @rootFields _ _ _ (str "a") rootObject_sample (by decide) (by decide) (by decide)
  exact ⟨h.1 (by decide), h.2 (by decide)⟩

end Wpm.JsonInput
