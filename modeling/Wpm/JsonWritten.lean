import Wpm.JsonRoot
import Wpm.Lib.JsonBytes

/-!
The fields of an object as it is written: without white space, and with keys that need no escapes.

Such an object is read back field by field, whatever the text after it.
-/

namespace Wpm.JsonInput

open Wpm.Lib.CString Wpm.Lib.Json

/-! ### Fields -/

/-- A key as it is written stands for itself. -/
lemma stringIs_plain {key : Bytes} (h : Plain key) : StringIs (ch '"' :: key ++ [ch '"']) key := by
  have hspells := spells_raw h Spells.nil
  rw [List.append_nil] at hspells
  exact ⟨key, hspells, rfl⟩

lemma nameIn_writtenMember {m : Bytes × Bytes} {key : Bytes} (hplain : Plain m.1) (hne : key ≠ [])
    (hlen : key.length < 128) (hkey : Plain key) : nameIn 128 (writtenMember m).key = key ↔
      m.1 = key := by
  have hzero : 0 ∉ key := fun h0 => absurd (hkey 0 h0).1 (by decide)
  have hthis := stringIs_plain hplain
  change nameIn 128 (ch '"' :: m.1 ++ [ch '"']) = key ↔ m.1 = key
  rw [nameIn_eq_iff_stringIs (by decide) hne hzero hlen hplain.isString]
  constructor
  · exact fun hother => stringIs_unique hthis hother
  · rintro rfl
    exact hthis

/-- What follows the value of a member that is written: a comma or the brace that closes the
object. -/
lemma cur_closing_brace (l : List Bytes) (q : Bytes) :
    cur (closing (ch '}') l q) = ch ',' ∨ cur (closing (ch '}') l q) = ch '}' := by
  cases l with
  | nil => exact .inr rfl
  | cons a l => exact .inl rfl

/-- **A field of an object that is written is found**, with what stands behind it. -/
theorem jsonUniqueField_objectText {ms : List (Bytes × Bytes)} (h : Fields ms)
    (hkeys : (ms.map Prod.fst).Nodup) {key value : Bytes} (hmem : (key, value) ∈ ms)
    (hne : key ≠ []) (hlen : key.length < 128) {q : Bytes}
    (hsize : (objectText ms ++ q).length ≤ sizeMax) :
    ∃ rest, jsonUniqueField (objectText ms ++ q) key = some (value ++ rest) ∧
      (cur rest = ch ',' ∨ cur rest = ch '}') ∧
      (value ++ rest).length ≤ (objectText ms ++ q).length := by
  have hobject := isObject_objectText h
  obtain ⟨front, behind, rfl⟩ := List.append_of_mem hmem
  have hplain : Plain key := (h _ hmem).1
  have hname : ∀ m ∈ front ++ (key, value) :: behind,
      nameIn 128 (writtenMember m).key = key ↔ m.1 = key := fun m hm =>
    nameIn_writtenMember (h m hm).1 hne hlen hplain
  rw [List.map_append, List.map_cons, List.nodup_append] at hkeys
  obtain ⟨-, hbehind, hfront⟩ := hkeys
  obtain ⟨w, -, hempty, htext⟩ := hobject.exists_opened q
  obtain rfl := hempty (by simp)
  have hlength := congrArg List.length htext
  have hopened := length_opened (ch '}') (((front ++ (key, value) :: behind).map
    writtenMember).map Member.text) q
  simp only [List.length_map, List.nil_append, List.length_cons] at hlength hopened
  have hcontent : jsonContent (objectText (front ++ (key, value) :: behind) ++ q) =
      objectText (front ++ (key, value) :: behind) ++ q := by
    have happend := @jsonContent_append [] [] _ q (.inl rfl) whitespace_nil hobject.isValue
    simpa only [List.nil_append] using happend
  have hmember : IsObject (front.map writtenMember ++ writtenMember (key, value) ::
      behind.map writtenMember) (objectText (front ++ (key, value) :: behind)) := by
    rwa [List.map_append, List.map_cons] at hobject
  have hlt := hmember.length_member_lt q
  rw [text_writtenMember] at hlt
  refine ⟨closing (ch '}') ((behind.map writtenMember).map Member.text) q, ?_,
    cur_closing_brace _ q, ?_⟩
  · rw [jsonUniqueField, hcontent, htext]
    simp only [cur_cons, ne_eq, not_true_eq_false, if_false, List.tail_cons, List.nil_append,
      List.length_cons]
    rw [jsonUniqueFieldFrom_eq (fun m hm => ⟨hobject.framed m hm, hobject.value m hm⟩) (by omega)
      (by rw [List.length_map]; omega)]
    rw [List.map_append, List.map_cons, uniqueOf_append ((hname _ hmem).2 rfl), uniqueOf_other]
    · rfl
    · intro m' hm'
      obtain ⟨m, hm, rfl⟩ := List.mem_map.1 hm'
      rw [ne_eq, hname m (by simp [hm])]
      rintro rfl
      exact (List.nodup_cons.1 hbehind).1 (List.mem_map.2 ⟨m, hm, rfl⟩)
    · intro m' hm'
      obtain ⟨m, hm, rfl⟩ := List.mem_map.1 hm'
      rw [ne_eq, hname m (by simp [hm])]
      rintro rfl
      exact hfront _ (List.mem_map.2 ⟨m, hm, rfl⟩) _ List.mem_cons_self rfl
  · simp only [memberText, List.length_append, List.length_cons] at hlt ⊢
    omega

end Wpm.JsonInput
