import Wpm.JsonOutput
import Wpm.Lib.Substring

/-!
What the loops of the redaction do to a text, one occurrence after the other.

`Strips` is the removal of user information and `Masks` the masking of one field; the loops run to
their ends in these relations, whatever the text. A text only gets shorter on the way, and the star
is the one byte that is new.
-/

namespace Wpm.JsonOutput

open Wpm.Lib.CString

/-! ### Control sequences -/

lemma skipSequence_suffix (p : Bytes) : skipSequence p <:+ p :=
  (List.tail_suffix _).trans (List.dropWhile_suffix _)

lemma skipCommand_suffix : ∀ p : Bytes, skipCommand p <:+ p
  | [] => List.suffix_refl []
  | c :: p => by
    rw [skipCommand]
    split_ifs
    · exact List.suffix_cons c p
    · exact (List.tail_suffix p).trans (List.suffix_cons c p)
    · exact (skipCommand_suffix p).trans (List.suffix_cons c p)

lemma dropControls_sublist : ∀ fuel (text : Bytes), (dropControls fuel text).Sublist text
  | 0, text => by
    rw [dropControls]
    exact List.nil_sublist text
  | fuel + 1, [] => List.Sublist.refl []
  | fuel + 1, c :: p => by
    have hrest : ∀ q, q <:+ p → (dropControls fuel q).Sublist (c :: p) := fun q hq =>
      (dropControls_sublist fuel q).trans (hq.sublist.trans (List.sublist_cons_self c p))
    rw [dropControls]
    split_ifs
    · exact hrest _ ((skipSequence_suffix _).trans (List.tail_suffix p))
    · exact hrest _ ((skipCommand_suffix _).trans (List.tail_suffix p))
    · exact hrest p (List.suffix_refl p)
    · exact (dropControls_sublist fuel p).cons_cons c
    · exact hrest p (List.suffix_refl p)

/-! ### User information -/

/-- The user information that starts an authority is dropped from every authority of the text. -/
inductive Strips : Bytes → Bytes → Prop
  | none {text : Bytes} (h : strstr (str "://") text = .none) : Strips text text
  | authority {before read out : Bytes} (h : strstr (str "://") (before ++ (str "://" ++ read)) =
      some (str "://" ++ read))
      (hrest : Strips (afterUser (spanNot (str "/?# \t\r\n") read).length read) out) :
    Strips (before ++ (str "://" ++ read)) (before ++ (str "://" ++ out))

lemma afterUser_suffix (n : ℕ) (authority : Bytes) : afterUser n authority <:+ authority :=
  List.drop_suffix _ _

lemma dropUserInfo_strips : ∀ {fuel : ℕ} {text : Bytes}, text.length ≤ fuel →
    Strips text (dropUserInfo fuel text)
  | 0, text, h => by
    obtain rfl := List.eq_nil_of_length_eq_zero (Nat.le_zero.1 h)
    exact .none rfl
  | fuel + 1, text, h => by
    cases hfind : strstr (str "://") text with
    | none =>
      rw [dropUserInfo, hfind]
      exact .none hfind
    | some p =>
      obtain ⟨⟨before, rfl⟩, ⟨read, rfl⟩⟩ := strstr_eq_some hfind
      have htake : (before ++ (str "://" ++ read)).take
          ((before ++ (str "://" ++ read)).length - (str "://" ++ read).length) = before := by
        rw [List.length_append, Nat.add_sub_cancel, List.take_left]
      have hdrop : (str "://" ++ read).drop 3 = read := rfl
      have hlen : (afterUser (spanNot (str "/?# \t\r\n") read).length read).length ≤ fuel := by
        have hsuffix := (afterUser_suffix (spanNot (str "/?# \t\r\n") read).length read).length_le
        have hthree : (str "://" ++ read).length = 3 + read.length := List.length_append
        rw [List.length_append, hthree] at h
        omega
      rw [dropUserInfo, hfind]
      simp only [htake, hdrop]
      rw [List.append_assoc]
      exact .authority hfind (dropUserInfo_strips hlen)

lemma Strips.sublist {text out : Bytes} (h : Strips text out) : out.Sublist text := by
  induction h with
  | none h => exact List.Sublist.refl _
  | authority h hrest ih =>
    have hread := ih.trans (afterUser_suffix _ _).sublist
    exact ((List.Sublist.refl _).append ((List.Sublist.refl _).append hread))

/-! ### Protected fields -/

/-- The quote that opens the value of a field. -/
def opening (value : Bytes) : Bytes :=
  if cur value = ch '"' ∨ cur value = ch '\'' then [cur value] else []

/-- The text from the end of the value of a field on. -/
def closing (value : Bytes) : Bytes :=
  if cur value = ch '"' ∨ cur value = ch '\'' then skipQuoted (cur value) value.tail
  else value.drop (spanNot (str "& \t\r\n\"'") value).length

/-- What is left of the value of a field. -/
def star (covered : Bytes) : Bytes := if covered = [] then [] else [ch '*']

/-- A field is masked in a text. -/
inductive Masks (field : Bytes) : Bytes → Bytes → Prop
  | none {text : Bytes} (h : findProtectedField field text = .none) : Masks field text text
  | value {before name value covered out : Bytes} (hname : name.length = field.length)
      (h : findProtectedField field (before ++ (name ++ value)) = some (name ++ value))
      (hvalue : value = opening value ++ covered ++ closing value)
      (hrest : Masks field (closing value) out) :
    Masks field (before ++ (name ++ value))
      (before ++ (name ++ (opening value ++ (star covered ++ out))))

lemma findProtectedField_eq_some {field p : Bytes} : ∀ {text : Bytes},
    findProtectedField field text = some p → ∃ before name value, text = before ++ p ∧
      p = name ++ value ∧ fold name = field
  | c :: text, h => by
    rw [findProtectedField] at h
    by_cases hstart : field.isPrefixOf (fold (c :: text)) = true
    · rw [if_pos hstart] at h
      obtain rfl := Option.some.inj h
      obtain ⟨rest, hrest⟩ := List.isPrefixOf_iff_prefix.1 hstart
      obtain ⟨name, value, hsplit, hname, -⟩ := List.map_eq_append_iff.1 hrest.symm
      exact ⟨[], name, value, rfl, hsplit, hname⟩
    · rw [if_neg hstart] at h
      obtain ⟨before, name, value, htext, hp, hname⟩ := findProtectedField_eq_some h
      exact ⟨c :: before, name, value, congrArg _ htext, hp, hname⟩

lemma skipQuoted_suffix (quote : UInt8) : ∀ p : Bytes, skipQuoted quote p <:+ p
  | [] => List.suffix_refl []
  | [c] => by
    rw [skipQuoted]
    split_ifs
    · exact List.suffix_refl [c]
    · exact List.nil_suffix
  | c :: d :: p => by
    rw [skipQuoted]
    split_ifs
    · exact List.suffix_refl _
    · exact (skipQuoted_suffix quote p).trans ((List.suffix_cons d p).trans (List.suffix_cons c _))
    · exact (skipQuoted_suffix quote (d :: p)).trans (List.suffix_cons c _)

/-- The value of a field ends somewhere. -/
lemma exists_covered (value : Bytes) :
    ∃ covered, value = opening value ++ covered ++ closing value := by
  by_cases hquote : cur value = ch '"' ∨ cur value = ch '\''
  · cases value with
    | nil => exact absurd hquote (by decide)
    | cons c value =>
      obtain ⟨covered, hcovered⟩ := skipQuoted_suffix c value
      refine ⟨covered, ?_⟩
      rw [opening, closing, if_pos hquote, if_pos hquote, cur_cons, List.tail_cons]
      exact congrArg _ hcovered.symm
  · refine ⟨value.take (spanNot (str "& \t\r\n\"'") value).length, ?_⟩
    rw [opening, closing, if_neg hquote, if_neg hquote, List.nil_append, List.take_append_drop]

/-- One turn of the loop. -/
lemma maskField_turn {field before name value covered : Bytes} (hname : name.length = field.length)
    (h : findProtectedField field (before ++ (name ++ value)) = some (name ++ value))
    (hvalue : value = opening value ++ covered ++ closing value) (fuel : ℕ) :
    maskField field (fuel + 1) (before ++ (name ++ value)) = before ++ (name ++
      (opening value ++ (star covered ++ maskField field fuel (closing value)))) := by
  have htake : (before ++ (name ++ value)).take
      ((before ++ (name ++ value)).length - (name ++ value).length) = before := by
    rw [List.length_append, Nat.add_sub_cancel, List.take_left]
  have hhidden : (if cur value = ch '"' ∨ cur value = ch '\'' then value.tail else value) =
      covered ++ closing value := by
    by_cases hquote : cur value = ch '"' ∨ cur value = ch '\''
    · rw [if_pos hquote]
      conv_lhs => rw [hvalue]
      rw [opening, if_pos hquote]
      rfl
    · rw [if_neg hquote]
      conv_lhs => rw [hvalue]
      rw [opening, if_neg hquote]
      rfl
  have hrest : (if cur value = ch '"' ∨ cur value = ch '\'' then
        skipQuoted (cur value) (if cur value = ch '"' ∨ cur value = ch '\'' then value.tail else value)
      else (if cur value = ch '"' ∨ cur value = ch '\'' then value.tail else value).drop
        (spanNot (str "& \t\r\n\"'")
          (if cur value = ch '"' ∨ cur value = ch '\'' then value.tail else value)).length) =
      closing value := by
    rw [closing]
    split_ifs <;> rfl
  have hopening : (if cur value = ch '"' ∨ cur value = ch '\'' then [cur value] else []) =
    opening value := rfl
  rw [maskField, h]
  simp only [htake, ← hname, List.take_left, List.drop_left, hrest, hopening]
  rw [hhidden]
  by_cases hcovered : covered = []
  · rw [hcovered, List.nil_append, if_neg (lt_irrefl _), star, if_pos rfl, List.nil_append]
    simp only [List.append_assoc]
  · have hpos := List.length_pos_of_ne_nil hcovered
    have hlt : (closing value).length < (covered ++ closing value).length := by
      rw [List.length_append]
      omega
    rw [if_pos hlt, star, if_neg hcovered]
    simp only [List.append_assoc, List.singleton_append]

lemma maskField_masks {field : Bytes} (hfield : field ≠ []) : ∀ {fuel : ℕ} {text : Bytes},
    text.length ≤ fuel → Masks field text (maskField field fuel text)
  | 0, text, h => by
    obtain rfl := List.eq_nil_of_length_eq_zero (Nat.le_zero.1 h)
    exact .none rfl
  | fuel + 1, text, h => by
    cases hfind : findProtectedField field text with
    | none =>
      rw [maskField, hfind]
      exact .none hfind
    | some p =>
      obtain ⟨before, name, value, rfl, rfl, hname⟩ := findProtectedField_eq_some hfind
      obtain ⟨covered, hcovered⟩ := exists_covered value
      have hlength : name.length = field.length := by rw [← hname, length_fold]
      have hpos := List.length_pos_of_ne_nil hfield
      have hvalue := congrArg List.length hcovered
      rw [List.length_append, List.length_append] at hvalue
      have hrest : (closing value).length ≤ fuel := by
        rw [List.length_append, List.length_append] at h
        omega
      rw [maskField_turn hlength hfind hcovered]
      exact .value hlength hfind hcovered (maskField_masks hfield hrest)

lemma length_star_le (covered : Bytes) : (star covered).length ≤ covered.length := by
  rw [star]
  split_ifs with h
  · exact Nat.zero_le _
  · exact List.length_pos_of_ne_nil h

lemma Masks.length_le {field text out : Bytes} (h : Masks field text out) :
    out.length ≤ text.length := by
  induction h with
  | none h => exact le_rfl
  | @value before name value covered out hname h hvalue hrest ih =>
    have hstar := length_star_le covered
    have hlength := congrArg List.length hvalue
    simp only [List.length_append] at hlength ⊢
    omega

lemma Masks.mem {field text out : Bytes} (h : Masks field text out) {c : UInt8} (hc : c ∈ out) :
    c ∈ text ∨ c = ch '*' := by
  induction h with
  | none h => exact .inl hc
  | @value before name value covered out hname h hvalue hrest ih =>
    have hstar : c ∈ star covered → c = ch '*' := by
      intro h
      rw [star] at h
      split_ifs at h
      · cases h
      · exact List.mem_singleton.1 h
    rw [hvalue]
    simp only [List.mem_append] at hc ⊢
    tauto

/-! ### The text that is left -/

/-- The text before its fields are masked. -/
def unmasked (text : Bytes) : Bytes :=
  let text := dropControls text.length text
  dropUserInfo text.length text

lemma unmasked_sublist (text : Bytes) : (unmasked text).Sublist text :=
  (dropUserInfo_strips le_rfl).sublist.trans (dropControls_sublist _ _)

/-- What holds of a text and is kept by the masking of every field holds of the text that is
left. -/
lemma redactText_induction {p : Bytes → Prop} {text : Bytes} (h : p (unmasked text))
    (hstep : ∀ field ∈ protectedFields, ∀ text out, Masks field text out → p text → p out) :
    p (redactText text) := by
  have hfold : ∀ fields, fields ⊆ protectedFields → ∀ text, p text →
      p (fields.foldl (fun text field => maskField field text.length text) text) := by
    intro fields
    induction fields with
    | nil => exact fun _ _ h => h
    | cons field fields ih =>
      intro hfields text htext
      have hmem := hfields List.mem_cons_self
      have hne : ∀ field ∈ protectedFields, field ≠ [] := by decide
      have hmasks := maskField_masks (hne field hmem) (le_refl text.length)
      exact ih (fun f hf => hfields (List.mem_cons_of_mem field hf)) _
        (hstep field hmem _ _ hmasks htext)
  exact hfold _ (List.Subset.refl _) _ h

/-- **The text only gets shorter.** -/
lemma redactText_length_le (text : Bytes) : (redactText text).length ≤ text.length :=
  redactText_induction (p := fun out => out.length ≤ text.length) (unmasked_sublist text).length_le
    fun _ _ _ _ h hle => h.length_le.trans hle

/-- **The star is the one byte that is new.** -/
lemma mem_of_mem_redactText {text : Bytes} {c : UInt8} : c ∈ redactText text →
    c ∈ text ∨ c = ch '*' :=
  redactText_induction (p := fun out => c ∈ out → c ∈ text ∨ c = ch '*')
    (fun hc => .inl ((unmasked_sublist text).subset hc))
    fun _ _ _ _ h ih hc => (h.mem hc).elim ih .inr

end Wpm.JsonOutput
