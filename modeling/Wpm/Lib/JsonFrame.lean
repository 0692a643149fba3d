import Wpm.Lib.Json

/-!
An object with a place for the value of one of its members.

Whatever value is put into the place, the text around it stays as it is.
-/

namespace Wpm.Lib.Json

open Wpm.Lib.CString

/-- An object with a place for the value of one member. What `member` has for a value makes no
difference. -/
structure Frame where
  front : List Member
  member : Member
  behind : List Member

namespace Frame

/-- The members, with the value `v` in the place. -/
def members (f : Frame) (v : Bytes) : List Member :=
  f.front ++ { f.member with value := v } :: f.behind

/-- The object, with the value `v` in the place. -/
def text (f : Frame) (v : Bytes) : Bytes :=
  ch '{' :: commas ((f.members v).map Member.text) ++ [ch '}']

/-- The text of the object up to the place. -/
def head (f : Frame) : Bytes :=
  ch '{' :: (f.front.flatMap fun m => m.text ++ [ch ',']) ++ f.member.before ++ f.member.key ++
    f.member.beforeColon ++ ch ':' :: f.member.afterColon

/-- The text from the place on, with the text `q` behind the object. -/
def rest (f : Frame) (q : Bytes) : Bytes :=
  f.member.after ++ closing (ch '}') (f.behind.map Member.text) q

/-- Everything but the value is as in an object. -/
structure Valid (f : Frame) : Prop where
  framed : ∀ m ∈ f.front ++ f.member :: f.behind, m.Framed
  value : ∀ m ∈ f.front ++ f.behind, Value m.value

lemma commas_append_closing (c : UInt8) (l l' : List Bytes) (a q : Bytes) :
    commas (l ++ a :: l') ++ c :: q =
      (l.flatMap fun b => b ++ [ch ',']) ++ (a ++ closing c l' q) := by
  induction l with
  | nil => exact commas_append c a l' q
  | cons b l ih =>
    rw [List.cons_append, commas_cons b (by simp), List.flatMap_cons, List.append_assoc,
      List.append_assoc, ← ih]
    simp

/-- **The value stands in its place.** -/
lemma text_append (f : Frame) (v q : Bytes) : f.text v ++ q = f.head ++ (v ++ f.rest q) := by
  have hcommas := commas_append_closing (ch '}') (f.front.map Member.text)
    (f.behind.map Member.text) ({ f.member with value := v } : Member).text q
  have hmap : (f.members v).map Member.text = f.front.map Member.text ++
      ({ f.member with value := v } : Member).text :: f.behind.map Member.text := by
    rw [members, List.map_append, List.map_cons]
  rw [text, hmap, List.append_assoc, List.cons_append, List.singleton_append, hcommas,
    List.flatMap_map]
  simp [head, rest, Member.text]

/-- Any value makes it an object. -/
lemma Valid.isObject {f : Frame} (h : f.Valid) {v : Bytes} (hv : Value v) :
    IsObject (f.members v) (f.text v) := by
  refine ⟨fun m hm => ?_, fun m hm => ?_, _, .inr ⟨by simp [members], rfl⟩, rfl⟩
  · rcases List.mem_append.1 hm with hm | hm
    · exact h.framed m (by simp [hm])
    · rcases List.mem_cons.1 hm with rfl | hm
      · obtain ⟨h1, h2, h3, h4, h5⟩ := h.framed f.member (by simp)
        exact ⟨h1, h2, h3, h4, h5⟩
      · exact h.framed m (by simp [hm])
  · rcases List.mem_append.1 hm with hm | hm
    · exact h.value m (by simp [hm])
    · rcases List.mem_cons.1 hm with rfl | hm
      · exact hv
      · exact h.value m (by simp [hm])

/-- An object is the frame around each of its values. -/
lemma of_isObject {front behind : List Member} {m : Member} {v : Bytes}
    (h : IsObject (front ++ m :: behind) v) :
    (Frame.mk front m behind).Valid ∧ v = (Frame.mk front m behind).text m.value := by
  obtain ⟨hframed, hvalue, inner, hinner, rfl⟩ := h
  refine ⟨⟨hframed, fun m' hm' => hvalue m' ?_⟩, ?_⟩
  · rcases List.mem_append.1 hm' with hm' | hm'
    · simp [hm']
    · simp [hm']
  · obtain ⟨hnil, -⟩ | ⟨-, rfl⟩ := hinner
    · exact absurd hnil (by simp)
    · rfl

end Frame

end Wpm.Lib.Json
