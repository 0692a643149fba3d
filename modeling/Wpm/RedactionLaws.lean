import Wpm.Redaction

/-!
What the redaction guarantees of the text that it leaves.

The values of the protected fields are gone from it, whatever passes over the text came later, and a
text that is complete passes as it is.
-/

namespace Wpm.JsonOutput

open Wpm.Lib.CString

/-! ### The properties -/

/-- What ends an authority. -/
def authorityEnds : Bytes := str "/?# \t\r\n"

/-- What ends a value without quotes. -/
def valueEnds : Bytes := str "& \t\r\n\"'"

/-- No control character, apart from a tab, a line feed or a carriage return. -/
def Printable (c : UInt8) : Prop := 32 ≤ c ∨ c = 10 ∨ c = 13 ∨ c = 9

/-- **No authority of the text names a user.** -/
def NoUserInfo (text : Bytes) : Prop :=
  ∀ before rest, text = before ++ (str "://" ++ rest) → ch '@' ∉ spanNot authorityEnds rest

/-- What stands behind the name of a field has at most a star for a value. -/
def Short (value : Bytes) : Prop :=
  ∀ covered, value = opening value ++ covered ++ closing value →
    covered = [] ∨ covered = [ch '*']

/-- **Every value of the field is at most a star.** -/
def Masked (field text : Bytes) : Prop :=
  ∀ before name value, text = before ++ (name ++ value) → fold name = field → Short value

/-- **The redaction of a text is complete.** -/
structure Redacted (text : Bytes) : Prop where
  length : (redactText text).length ≤ text.length
  printable : ∀ c ∈ redactText text, Printable c
  authorities : NoUserInfo (redactText text)
  fields : ∀ field ∈ protectedFields, Masked field (redactText text)
  idempotent : redactText (redactText text) = redactText text

/-! ### Short values -/

/-- The text is empty, or starts with a character of this kind. -/
def EndsAt (p : UInt8 → Prop) (text : Bytes) : Prop := ∀ c ∈ text.head?, p c

/-- A quote that opens a value. -/
def IsQuote (c : UInt8) : Prop := c = ch '"' ∨ c = ch '\''

instance : DecidablePred IsQuote := fun c =>
  inferInstanceAs (Decidable (c = ch '"' ∨ c = ch '\''))

/-- What ends the value that stands there. -/
def Ends (value : Bytes) (c : UInt8) : Prop :=
  if IsQuote (cur value) then c = cur value else c ∈ valueEnds

/-- The value without its opening quote. -/
def inner (value : Bytes) : Bytes := value.drop (opening value).length

section Short

variable {p : UInt8 → Prop} {value : Bytes} {q : UInt8}

lemma endsAt_nil : EndsAt p [] := fun _ h => absurd h (by simp)

lemma endsAt_cons {c : UInt8} {text : Bytes} : EndsAt p (c :: text) ↔ p c := by simp [EndsAt]

lemma opening_of_quote (h : IsQuote (cur value)) : opening value = [cur value] := if_pos h

lemma opening_of_not_quote (h : ¬IsQuote (cur value)) : opening value = [] := if_neg h

lemma inner_of_quote {c : UInt8} (h : IsQuote c) (text : Bytes) : inner (c :: text) = text := by
  have hcur : IsQuote (cur (c :: text)) := h
  rw [inner, opening_of_quote hcur]
  rfl

lemma inner_of_not_quote (h : ¬IsQuote (cur value)) : inner value = value := by
  rw [inner, opening_of_not_quote h]
  rfl

/-- A star opens no value, nor does it end one. -/
lemma star_not_quote : ¬IsQuote (ch '*') := by decide

lemma skipQuoted_cons_of_ne {c : UInt8} (hq : c ≠ q) (hc : c ≠ ch '\\') (text : Bytes) :
    skipQuoted q (c :: text) = skipQuoted q text := by
  cases text with
  | nil => simp only [skipQuoted, if_neg hq]
  | cons d text => rw [skipQuoted, if_neg hq, if_neg hc]

lemma skipQuoted_cons_self (text : Bytes) : skipQuoted q (q :: text) = q :: text := by
  cases text with
  | nil => rw [skipQuoted, if_pos rfl]
  | cons d text => rw [skipQuoted, if_pos rfl]

lemma endsAt_skipQuoted (q : UInt8) : ∀ text : Bytes, EndsAt (· = q) (skipQuoted q text)
  | [] => endsAt_nil
  | [c] => by
    rw [skipQuoted]
    split_ifs with h
    · exact endsAt_cons.2 h
    · exact endsAt_nil
  | c :: d :: text => by
    rw [skipQuoted]
    split_ifs with h
    · exact endsAt_cons.2 h
    · exact endsAt_skipQuoted q text
    · exact endsAt_skipQuoted q (d :: text)

lemma skipQuoted_of_endsAt {text : Bytes} (h : EndsAt (· = q) text) : skipQuoted q text = text := by
  cases text with
  | nil => rfl
  | cons c text =>
    obtain rfl := endsAt_cons.1 h
    exact skipQuoted_cons_self text

/-- The end of a value. -/
lemma closing_eq (value : Bytes) : closing value =
    if IsQuote (cur value) then skipQuoted (cur value) (inner value)
    else (inner value).dropWhile (· ∉ valueEnds) := by
  unfold closing
  by_cases h : IsQuote (cur value)
  · have hquote : cur value = ch '"' ∨ cur value = ch '\'' := h
    rw [if_pos hquote, if_pos h, inner, opening_of_quote h]
    cases value with
    | nil => rfl
    | cons c value => rfl
  · have hquote : ¬(cur value = ch '"' ∨ cur value = ch '\'') := h
    have hsplit : value.takeWhile (fun c => decide (c ∉ valueEnds)) ++
        value.dropWhile (fun c => decide (c ∉ valueEnds)) = value :=
      List.takeWhile_append_dropWhile
    have hdrop := congrArg (List.drop (value.takeWhile fun c => decide (c ∉ valueEnds)).length) hsplit
    rw [List.drop_left] at hdrop
    rw [if_neg hquote, if_neg h, inner, opening_of_not_quote h]
    exact hdrop.symm

/-- The end of a value is where it should be. -/
lemma endsAt_closing (value : Bytes) : EndsAt (Ends value) (closing value) := by
  rw [closing_eq]
  by_cases h : IsQuote (cur value)
  · rw [if_pos h]
    intro c hc
    rw [Ends, if_pos h]
    exact endsAt_skipQuoted _ _ c hc
  · rw [if_neg h]
    intro c hc
    rw [Ends, if_neg h]
    have hhead := List.head?_dropWhile_not (fun c => decide (c ∉ valueEnds)) (inner value)
    rw [Option.mem_def.1 hc] at hhead
    simpa using hhead

lemma closing_of_endsAt (h : EndsAt (Ends value) (inner value)) : closing value = inner value := by
  rw [closing_eq]
  by_cases hq : IsQuote (cur value)
  · rw [if_pos hq]
    refine skipQuoted_of_endsAt fun c hc => ?_
    have hends := h c hc
    rwa [Ends, if_pos hq] at hends
  · rw [if_neg hq]
    cases hinner : inner value with
    | nil => rfl
    | cons c rest =>
      rw [hinner, endsAt_cons, Ends, if_neg hq] at h
      exact List.dropWhile_cons_of_neg (by simpa using h)

lemma closing_of_star {rest : Bytes} (hinner : inner value = ch '*' :: rest)
    (h : EndsAt (Ends value) rest) : closing value = rest := by
  rw [closing_eq, hinner]
  by_cases hq : IsQuote (cur value)
  · have hstar : ch '*' ≠ cur value := fun hstar => star_not_quote (hstar ▸ hq)
    rw [if_pos hq, skipQuoted_cons_of_ne hstar (by decide)]
    refine skipQuoted_of_endsAt fun c hc => ?_
    have hends := h c hc
    rwa [Ends, if_pos hq] at hends
  · rw [if_neg hq, List.dropWhile_cons_of_pos (by decide)]
    cases rest with
    | nil => rfl
    | cons c rest =>
      rw [endsAt_cons, Ends, if_neg hq] at h
      exact List.dropWhile_cons_of_neg (by simpa using h)

/-- **A value is short** if it ends at once, or after a star. -/
lemma short_iff : Short value ↔ EndsAt (Ends value) (inner value) ∨
    ∃ rest, inner value = ch '*' :: rest ∧ EndsAt (Ends value) rest := by
  have hinner : ∀ covered, value = opening value ++ covered ++ closing value →
      inner value = covered ++ closing value := by
    intro covered hcovered
    rw [List.append_assoc] at hcovered
    have hdrop := congrArg (List.drop (opening value).length) hcovered
    rwa [List.drop_left] at hdrop
  constructor
  · intro h
    obtain ⟨covered, hcovered⟩ := exists_covered value
    have hends := endsAt_closing value
    rcases h covered hcovered with rfl | rfl
    · exact .inl (hinner [] hcovered ▸ hends)
    · exact .inr ⟨_, hinner _ hcovered, hends⟩
  · intro h covered hcovered
    have hsplit := hinner covered hcovered
    rcases h with h | ⟨rest, hrest, h⟩
    · rw [closing_of_endsAt h] at hsplit
      exact .inl (List.self_eq_append_left.1 hsplit)
    · rw [closing_of_star hrest h, hrest] at hsplit
      exact .inr (@List.append_cancel_right _ [ch '*'] rest covered hsplit).symm

/-- Whether a value is short is decided before a character that is neither a star nor an end. -/
lemma Short.append_congr {w s : Bytes} {l : UInt8} (hstar : l ≠ ch '*') (hend : l ∉ valueEnds)
    (h : Short (w ++ l :: s)) (s' : Bytes) : Short (w ++ l :: s') := by
  have hquote : ¬IsQuote l := by
    rintro (rfl | rfl) <;> exact hend (by decide)
  have hcur : cur (w ++ l :: s') = cur (w ++ l :: s) := by cases w <;> rfl
  have hends : Ends (w ++ l :: s') = Ends (w ++ l :: s) := by
    funext c
    rw [Ends, Ends, hcur]
  have hnot : ¬Ends (w ++ l :: s) l := by
    rw [Ends]
    split_ifs with hq
    · exact fun heq => hquote (heq ▸ hq)
    · exact hend
  obtain ⟨u, hu⟩ : ∃ u, ∀ t, inner (w ++ l :: t) = u ++ l :: t := by
    cases w with
    | nil => exact ⟨[], fun t => @inner_of_not_quote (l :: t) hquote⟩
    | cons c w =>
      by_cases hq : IsQuote c
      · exact ⟨w, fun t => inner_of_quote hq _⟩
      · exact ⟨c :: w, fun t => @inner_of_not_quote (c :: (w ++ l :: t)) hq⟩
  rw [short_iff, hu] at h
  rw [short_iff, hu, hends]
  rcases h with h | ⟨rest, hrest, h⟩
  · left
    cases u with
    | nil => exact absurd (endsAt_cons.1 h) hnot
    | cons d u => exact endsAt_cons.2 (endsAt_cons.1 h)
  · right
    cases u with
    | nil => exact absurd (List.cons.inj hrest).1 hstar
    | cons d u =>
      obtain ⟨rfl, rfl⟩ := List.cons.inj hrest
      cases u with
      | nil => exact absurd (endsAt_cons.1 h) hnot
      | cons d u => exact ⟨_, rfl, endsAt_cons.2 (endsAt_cons.1 h)⟩

/-- A value that is covered is short. -/
lemma short_star {rest : Bytes} (h : EndsAt (Ends value) rest) :
    Short (opening value ++ ch '*' :: rest) := by
  by_cases hq : IsQuote (cur value)
  · have hends : Ends (cur value :: ch '*' :: rest) = Ends value := by
      funext c
      rw [Ends, Ends, cur_cons]
    rw [opening_of_quote hq, List.singleton_append, short_iff, hends, inner_of_quote hq]
    exact .inr ⟨rest, rfl, h⟩
  · have hends : Ends (ch '*' :: rest) = Ends value := by
      funext c
      rw [Ends, Ends, cur_cons, if_neg star_not_quote, if_neg hq]
    rw [opening_of_not_quote hq, List.nil_append, short_iff, hends,
      @inner_of_not_quote (ch '*' :: rest) star_not_quote]
    exact .inr ⟨rest, rfl, h⟩

/-- So is one that is empty. -/
lemma short_nil {rest : Bytes}
    (h : EndsAt (fun c => Ends value c ∧ (opening value = [] → ¬IsQuote c)) rest) :
    Short (opening value ++ rest) := by
  have hrest : EndsAt (Ends value) rest := fun c hc => (h c hc).1
  by_cases hq : IsQuote (cur value)
  · have hends : Ends (cur value :: rest) = Ends value := by
      funext c
      rw [Ends, Ends, cur_cons]
    rw [opening_of_quote hq, List.singleton_append, short_iff, hends, inner_of_quote hq]
    exact .inl hrest
  · have hcur : ¬IsQuote (cur rest) := by
      cases rest with
      | nil => exact (by decide : ¬IsQuote 0)
      | cons c rest => exact (endsAt_cons.1 h).2 (opening_of_not_quote hq)
    have hends : Ends rest = Ends value := by
      funext c
      rw [Ends, Ends, if_neg hcur, if_neg hq]
    rw [opening_of_not_quote hq, List.nil_append, short_iff, hends, inner_of_not_quote hcur]
    exact .inl hrest

end Short

/-! ### The names of the fields -/

/-- A text that is spelled like the name of a field. -/
structure FieldName (name : Bytes) : Prop where
  ends : name.getLast? = some (ch '=')
  inside : ch '=' ∉ name.dropLast
  plain : ∀ c ∈ name, c ≠ ch '*' ∧ c ∉ valueEnds

lemma fieldName {field name : Bytes} (hfield : field ∈ protectedFields) (hname : fold name = field) :
    FieldName name := by
  have hall : ∀ field ∈ protectedFields, field.getLast? = some (ch '=') ∧
      ch '=' ∉ field.dropLast := by decide
  have hchars : ∀ field ∈ protectedFields, field.all (fun c => c ∉ ch '*' :: valueEnds) = true := by
    decide
  obtain ⟨hends, hinside⟩ := hall field hfield
  have hplain : ∀ c ∈ ch '*' :: valueEnds, c ∉ field := fun c hc hmem =>
    of_decide_eq_true (List.all_eq_true.1 (hchars field hfield) c hmem) hc
  -- the special characters are the same in both cases
  have hlower : ∀ c ∈ ch '=' :: ch '*' :: valueEnds, lower c = c :=
    forall_mem_of_all (by decide)
  have hsame : ∀ c ∈ ch '=' :: ch '*' :: valueEnds, ∀ text : Bytes, c ∈ text → c ∈ fold text :=
    fun c hc text hmem => List.mem_map.2 ⟨c, hmem, hlower c hc⟩
  subst hname
  refine ⟨?_, ?_, ?_⟩
  · rw [fold, List.getLast?_map] at hends
    obtain ⟨c, hc, hlast⟩ := Option.map_eq_some_iff.1 hends
    rw [hc, eq_of_lower_eq (by decide) (hlast.trans (hlower _ List.mem_cons_self).symm)]
  · intro hmem
    refine hinside ?_
    rw [fold, ← List.map_dropLast]
    exact hsame _ List.mem_cons_self _ hmem
  · intro c hc
    have hnot : c ∉ ch '*' :: valueEnds := fun hmem =>
      hplain c hmem (hsame c (List.mem_cons_of_mem _ hmem) name hc)
    exact ⟨fun h => hnot (h ▸ List.mem_cons_self), fun h => hnot (List.mem_cons_of_mem _ h)⟩

/-! ### One value -/

/-- **One value of the field is covered.** -/
inductive MaskStep (field : Bytes) : Bytes → Bytes → Prop
  | mk {before name value covered : Bytes} (hname : fold name = field)
      (hvalue : value = opening value ++ covered ++ closing value) (hne : covered ≠ []) :
    MaskStep field (before ++ (name ++ value))
      (before ++ (name ++ (opening value ++ ch '*' :: closing value)))

section Steps

variable {field other text out : Bytes}

lemma mem_opening {value : Bytes} {c : UInt8} (h : c ∈ opening value) : c ∈ valueEnds := by
  by_cases hq : IsQuote (cur value)
  · rw [opening_of_quote hq, List.mem_singleton] at h
    rw [h]
    rcases hq with hq | hq <;> rw [hq] <;> decide
  · rw [opening_of_not_quote hq] at h
    exact absurd h List.not_mem_nil

lemma FieldName.ne_nil {name : Bytes} (h : FieldName name) : name ≠ [] := by
  rintro rfl
  exact absurd h.ends (by simp)

/-- Names do not overlap, unless they end together. -/
lemma FieldName.disjoint {before name b n w : Bytes} (hname : FieldName name) (hn : FieldName n)
    (h : before ++ name = b ++ (n ++ w)) :
    w = [] ∨ ∃ u, w = u ++ name ∧ before = b ++ (n ++ u) := by
  rw [← List.append_assoc, List.append_eq_append_iff] at h
  rcases h with ⟨a, hb, hsplit⟩ | ⟨u, hbefore, hw⟩
  · by_cases ha : a = []
    · subst ha
      exact .inr ⟨[], hsplit.symm, by rw [List.append_nil] at hb; rw [List.append_nil, hb]⟩
    · left
      by_contra hw
      have hlast : a.getLast? = some (ch '=') := by
        have := congrArg List.getLast? hb
        rw [List.getLast?_append_of_ne_nil _ hn.ne_nil, List.getLast?_append_of_ne_nil _ ha,
          hn.ends] at this
        exact this.symm
      refine hname.inside ?_
      rw [hsplit, List.dropLast_append_of_ne_nil hw]
      exact List.mem_append_left _ (List.mem_of_getLast? hlast)
  · exact .inr ⟨u, hw, by rw [hbefore, List.append_assoc]⟩

/-- No name holds a star. -/
lemma FieldName.star_notMem {name : Bytes} (h : FieldName name) : ch '*' ∉ name := fun hmem =>
  absurd rfl (h.plain _ hmem).1

/-- **A value that is covered leaves the others short.** -/
lemma MaskStep.masked (h : MaskStep field text out) (hfield : field ∈ protectedFields)
    (hother : other ∈ protectedFields) (hmasked : Masked other text) : Masked other out := by
  obtain @⟨before, name, value, covered, hname, hvalue, hne⟩ := h
  have hfirst : FieldName name := fieldName hfield hname
  intro b n v hout hn
  have hsecond : FieldName n := fieldName hother hn
  -- the text, and what is left of it, around the value
  have htext : before ++ (name ++ value) =
      before ++ (name ++ opening value) ++ (covered ++ closing value) := by
    conv_lhs => rw [hvalue]
    simp only [List.append_assoc]
  have hsplit : before ++ (name ++ opening value) ++ ch '*' :: closing value = b ++ (n ++ v) := by
    rw [← hout]
    simp only [List.append_assoc]
  rcases append_cons_eq_append hsecond.star_notMem hsplit with ⟨w, hx, rfl⟩ | ⟨a, -, ha⟩
  · -- the name stands before the star
    have hw : ∃ u, w = u ++ opening value ∧ before ++ name = b ++ (n ++ u) := by
      rw [← List.append_assoc, ← List.append_assoc b, List.append_eq_append_iff] at hx
      rcases hx with ⟨m, hb, hm⟩ | ⟨u, hbefore, hw⟩
      · by_cases hm0 : m = []
        · subst hm0
          exact ⟨[], hm.symm, by rw [List.append_nil] at hb; rw [List.append_nil, hb]⟩
        · -- the last character of a name is no quote
          have hlast := congrArg List.getLast? hb
          rw [List.getLast?_append_of_ne_nil _ hsecond.ne_nil, List.getLast?_append_of_ne_nil _ hm0,
            hsecond.ends] at hlast
          have hmem : ch '=' ∈ opening value :=
            hm ▸ List.mem_append_left _ (List.mem_of_getLast? hlast.symm)
          exact absurd (mem_opening hmem) (by decide)
      · exact ⟨u, hw, by rw [hbefore, List.append_assoc]⟩
    obtain ⟨u, rfl, hu⟩ := hw
    rcases hfirst.disjoint hsecond hu with rfl | ⟨u, rfl, rfl⟩
    · exact short_star (endsAt_closing value)
    · -- the value of the other field starts before this name
      obtain ⟨l, rest, rfl⟩ := List.exists_cons_of_ne_nil hfirst.ne_nil
      obtain ⟨hstar, hend⟩ := hfirst.plain l List.mem_cons_self
      have hshort : Short (u ++ l :: (rest ++ value)) := by
        refine hmasked b n _ ?_ hn
        simp only [List.append_assoc, List.cons_append]
      have := hshort.append_congr hstar hend (rest ++ opening value ++ ch '*' :: closing value)
      simpa only [List.append_assoc, List.cons_append] using this
  · -- the name stands behind the star, as before
    refine hmasked (before ++ (name ++ opening value) ++ covered ++ a) n v ?_ hn
    rw [htext, ha]
    simp only [List.append_assoc]

/-- A name stands behind characters that it does not hold. -/
lemma FieldName.split_of_notMem {o rest u n v : Bytes} (hn : FieldName n) (ho : ∀ c ∈ o, c ∉ n)
    (h : o ++ rest = u ++ (n ++ v)) : ∃ a, rest = a ++ (n ++ v) := by
  rw [List.append_eq_append_iff] at h
  rcases h with ⟨a, -, hrest⟩ | ⟨m, ho', hm⟩
  · exact ⟨a, hrest⟩
  · cases m with
    | nil => exact ⟨[], hm.symm⟩
    | cons c m =>
      obtain ⟨l, name, rfl⟩ := List.exists_cons_of_ne_nil hn.ne_nil
      obtain ⟨rfl, -⟩ := List.cons.inj hm
      refine absurd List.mem_cons_self (ho l ?_)
      rw [ho']
      exact List.mem_append_right u List.mem_cons_self

end Steps

/-! ### One field -/

section Fields

variable {field other text out : Bytes}

/-- What each step keeps is kept by the masking of a field, in a text with anything before. -/
lemma Masks.induction_steps {p : Bytes → Prop}
    (hstep : ∀ text out, MaskStep field text out → p text → p out) (h : Masks field text out) :
    ∀ start, p (start ++ text) → p (start ++ out) := by
  induction h with
  | none h => exact fun _ hp => hp
  | @value before name value covered out hname h hvalue hrest ih =>
    intro start hp
    have hfold : fold name = field := by
      obtain ⟨b, n, v, -, hn, hfold⟩ := findProtectedField_eq_some h
      have hlength : n.length = name.length := by rw [hname, ← hfold, length_fold]
      rw [(List.append_inj hn.symm hlength).1.symm, hfold]
    have hcovered : p (start ++ (before ++ (name ++ (opening value ++ star covered))) ++
        closing value) := by
      by_cases hne : covered = []
      · subst hne
        rw [hvalue] at hp
        rw [star, if_pos rfl]
        simpa only [List.append_assoc, List.append_nil, List.nil_append] using hp
      · have := hstep _ _ (@MaskStep.mk field (start ++ before) name value covered hfold hvalue hne)
          (by simpa only [List.append_assoc] using hp)
        rw [star, if_neg hne]
        simpa only [List.append_assoc, List.singleton_append] using this
    have := ih _ hcovered
    simpa only [List.append_assoc] using this

/-- The first occurrence is found. -/
lemma findProtectedField_of_append {before name value : Bytes} (hne : field ≠ [])
    (hname : fold name = field) : ∃ p, findProtectedField field (before ++ (name ++ value)) = some p ∧
      (name ++ value) <:+ p := by
  induction before with
  | nil =>
    obtain ⟨c, rest, hcons⟩ : ∃ c rest, name = c :: rest := by
      refine List.exists_cons_of_ne_nil ?_
      rintro rfl
      exact hne hname.symm
    refine ⟨name ++ value, ?_, List.suffix_refl _⟩
    have hstart : field.isPrefixOf (fold (name ++ value)) = true := by
      rw [List.isPrefixOf_iff_prefix, fold_append, hname]
      exact List.prefix_append _ _
    rw [List.nil_append]
    subst hcons
    rw [List.cons_append] at hstart ⊢
    rw [findProtectedField, if_pos hstart]
  | cons c before ih =>
    rw [List.cons_append, findProtectedField]
    split_ifs
    · exact ⟨_, rfl, (List.suffix_append before _).trans (List.suffix_cons c _)⟩
    · exact ih

/-- The text starts with the same character. -/
lemma Masks.endsAt {p : UInt8 → Prop} (hfield : field ≠ []) (h : Masks field text out)
    (hends : EndsAt p text) : EndsAt p out := by
  cases h with
  | none h => exact hends
  | @value before name value covered out hname h hvalue hrest =>
    have hne : before ++ name ≠ [] := by
      intro hnil
      rw [List.append_eq_nil_iff] at hnil
      rw [hnil.2, List.length_nil, eq_comm, List.length_eq_zero_iff] at hname
      exact hfield hname
    obtain ⟨c, rest, hcons⟩ := List.exists_cons_of_ne_nil hne
    rw [← List.append_assoc, hcons, List.cons_append, endsAt_cons] at hends
    rw [← List.append_assoc, hcons, List.cons_append, endsAt_cons]
    exact hends

/-- **The field is masked in the text that is left.** -/
theorem Masks.masked (hfield : field ∈ protectedFields) (h : Masks field text out) :
    Masked field out := by
  have hne : ∀ field ∈ protectedFields, field ≠ [] := by decide
  have hne := hne field hfield
  induction h with
  | none h =>
    rintro b n v rfl hn
    obtain ⟨p, hp, -⟩ := @findProtectedField_of_append field b n v hne hn
    rw [h] at hp
    exact absurd hp (by simp)
  | @value before name value covered out hlength h hvalue hrest ih =>
    have hname : fold name = field := by
      obtain ⟨b, n, v, -, hn, hfold⟩ := findProtectedField_eq_some h
      have hlen : n.length = name.length := by rw [hlength, ← hfold, length_fold]
      rw [(List.append_inj hn.symm hlen).1.symm, hfold]
    have hfirst := fieldName hfield hname
    -- the value of this name
    have hshort : Short (opening value ++ (star covered ++ out)) := by
      have hends := endsAt_closing value
      by_cases hcovered : covered = []
      · rw [star, if_pos hcovered, List.nil_append]
        refine short_nil (hrest.endsAt hne fun c hc => ⟨hends c hc, fun hopen hquote => ?_⟩)
        -- the value is empty, and would start with a quote
        have hall : value = closing value := by
          have := hvalue
          rw [hopen, hcovered] at this
          exact this
        have hcur : cur value = c := by
          rw [hall, cur, List.headD_eq_head?_getD, Option.mem_def.1 hc]
          rfl
        rw [opening_of_quote (hcur ▸ hquote)] at hopen
        exact absurd hopen (List.cons_ne_nil _ _)
      · rw [star, if_neg hcovered, List.singleton_append]
        exact short_star (hrest.endsAt hne hends)
    intro b n v hout hn
    have hsecond := fieldName hfield hn
    rw [← List.append_assoc, ← List.append_assoc b, List.append_eq_append_iff] at hout
    rcases hout with ⟨a, hb, hv⟩ | ⟨w, hbefore, rfl⟩
    · rw [List.append_assoc] at hb
      rcases hsecond.disjoint hfirst hb with rfl | ⟨u, rfl, -⟩
      · rw [List.nil_append] at hv
        exact hv ▸ hshort
      · -- the name stands behind what is left of the value
        have hnot : ∀ c ∈ opening value ++ star covered, c ∉ n := by
          intro c hc hmem
          obtain ⟨hstar, hend⟩ := hsecond.plain c hmem
          rcases List.mem_append.1 hc with hc | hc
          · exact hend (mem_opening hc)
          · rw [star] at hc
            split_ifs at hc
            · exact absurd hc List.not_mem_nil
            · exact hstar (List.mem_singleton.1 hc)
        rw [← List.append_assoc, List.append_assoc u] at hv
        obtain ⟨a, ha⟩ := hsecond.split_of_notMem hnot hv
        exact ih a n v ha hn
    · -- no name stands before the first one
      obtain ⟨p, hp, hsuffix⟩ := @findProtectedField_of_append field b n (w ++ value) hne hn
      have htext : before ++ (name ++ value) = b ++ (n ++ (w ++ value)) := by
        rw [← List.append_assoc, hbefore]
        simp only [List.append_assoc]
      rw [← htext, h] at hp
      obtain rfl := Option.some.inj hp
      have hle := hsuffix.length_le
      have hlen : n.length = name.length := by rw [hlength, ← hn, length_fold]
      simp only [List.length_append] at hle
      obtain rfl : w = [] := List.eq_nil_of_length_eq_zero (by omega)
      exact hshort

/-- A text that is masked stays as it is. -/
lemma Masks.eq_self (hmasked : Masked field text) (h : Masks field text out) : out = text := by
  induction h with
  | none h => rfl
  | @value before name value covered out hlength h hvalue hrest ih =>
    have hname : fold name = field := by
      obtain ⟨b, n, v, -, hn, hfold⟩ := findProtectedField_eq_some h
      have hlen : n.length = name.length := by rw [hlength, ← hfold, length_fold]
      rw [(List.append_inj hn.symm hlen).1.symm, hfold]
    have hstar : star covered = covered := by
      rcases hmasked before name value rfl hname covered hvalue with rfl | rfl <;> rfl
    have hclosing : Masked field (closing value) := by
      intro b n v hsplit hn
      refine hmasked (before ++ (name ++ (opening value ++ covered)) ++ b) n v ?_ hn
      conv_lhs => rw [hvalue, hsplit]
      simp only [List.append_assoc]
    rw [ih hclosing, hstar, ← List.append_assoc (opening value), ← hvalue]

end Fields

/-! ### The whole redaction -/

section Redaction

variable {text out : Bytes}

lemma masks_maskField {field : Bytes} (hfield : field ∈ protectedFields) (text : Bytes) :
    Masks field text (maskField field text.length text) := by
  have hne : ∀ field ∈ protectedFields, field ≠ [] := by decide
  exact maskField_masks (hne field hfield) le_rfl

/-- **Every field is masked** in the text that is left. -/
theorem masked_redactText (text : Bytes) : ∀ field ∈ protectedFields, Masked field (redactText text) := by
  have hfold : ∀ fields, fields ⊆ protectedFields → ∀ done, done ⊆ protectedFields → ∀ text,
      (∀ field ∈ done, Masked field text) → ∀ field ∈ done ++ fields,
        Masked field (fields.foldl (fun text field => maskField field text.length text) text) := by
    intro fields
    induction fields with
    | nil => exact fun _ done _ text h field hmem => h field (by simpa using hmem)
    | cons field fields ih =>
      intro hfields done hdone text h other hother
      have hfield := hfields List.mem_cons_self
      have hmasks := masks_maskField hfield text
      have hnext : ∀ other ∈ done ++ [field], Masked other (maskField field text.length text) := by
        intro other hother
        rcases List.mem_append.1 hother with hmem | hmem
        · have hstep := @Masks.induction_steps field _ _ (Masked other)
            (fun _ _ hstep => hstep.masked hfield (hdone hmem)) hmasks []
          exact hstep (h other hmem)
        · rw [List.mem_singleton.1 hmem]
          exact hmasks.masked hfield
      refine ih (fun f hf => hfields (List.mem_cons_of_mem _ hf)) (done ++ [field]) ?_ _ hnext other ?_
      · exact List.append_subset.2 ⟨hdone, fun f hf => List.mem_singleton.1 hf ▸ hfield⟩
      · rw [List.append_assoc]
        exact hother
  intro field hfield
  exact hfold protectedFields (List.Subset.refl _) [] (List.nil_subset _) (unmasked text)
    (fun _ h => absurd h List.not_mem_nil) field hfield

lemma printable_dropControls : ∀ (fuel : ℕ) (text : Bytes), ∀ c ∈ dropControls fuel text, Printable c
  | 0, text => by
    rw [dropControls]
    exact fun c hc => absurd hc List.not_mem_nil
  | fuel + 1, [] => fun c hc => absurd hc List.not_mem_nil
  | fuel + 1, c :: p => by
    rw [dropControls]
    split_ifs with h1 h2 h3 h4
    · exact printable_dropControls fuel _
    · exact printable_dropControls fuel _
    · exact printable_dropControls fuel _
    · exact List.forall_mem_cons.2 ⟨h4, printable_dropControls fuel p⟩
    · exact printable_dropControls fuel _

lemma printable_redactText (text : Bytes) : ∀ c ∈ redactText text, Printable c := by
  refine @redactText_induction (fun out => ∀ c ∈ out, Printable c) text ?_ ?_
  · exact fun c hc => printable_dropControls _ _ c ((dropUserInfo_strips le_rfl).sublist.subset hc)
  · intro field hfield text out h htext c hc
    rcases h.mem hc with hmem | rfl
    · exact htext c hmem
    · exact .inl (by decide)

/-- A text without control characters passes as it is. -/
lemma dropControls_eq_self : ∀ {fuel : ℕ} {text : Bytes}, text.length ≤ fuel →
    (∀ c ∈ text, Printable c) → dropControls fuel text = text
  | 0, text, h, _ => (List.eq_nil_of_length_eq_zero (Nat.le_zero.1 h)).symm ▸ rfl
  | fuel + 1, [], _, _ => rfl
  | fuel + 1, c :: p, h, hall => by
    obtain ⟨hc, hp⟩ := List.forall_mem_cons.1 hall
    have hescape : c ≠ 27 := by
      rintro rfl
      exact absurd hc (by unfold Printable; decide)
    have hpass : 32 ≤ c ∨ c = 10 ∨ c = 13 ∨ c = 9 := hc
    rw [dropControls, if_neg hescape, if_pos hpass,
      dropControls_eq_self (Nat.le_of_succ_le_succ h) hp]

/-- A text whose authorities name no user passes as it is. -/
lemma Strips.eq_self (hclean : NoUserInfo text) (h : Strips text out) : out = text := by
  induction h with
  | none h => rfl
  | @authority before read out h hrest ih =>
    have hat := hclean before read rfl
    have huser : afterUser (spanNot authorityEnds read).length read = read := by
      have hnone : ((read.take (spanNot authorityEnds read).length).reverse.dropWhile
          (· ≠ ch '@')) = [] := by
        refine List.dropWhile_eq_nil_iff.2 fun c hc => ?_
        have htake : read.take (spanNot authorityEnds read).length = spanNot authorityEnds read :=
          (List.prefix_iff_eq_take.1 (List.takeWhile_prefix _)).symm
        rw [List.mem_reverse, htake] at hc
        exact decide_eq_true fun hce => hat (hce ▸ hc)
      rw [afterUser, hnone]
      rfl
    have hread : NoUserInfo (afterUser (spanNot authorityEnds read).length read) := by
      rw [huser]
      intro b r hsplit
      refine hclean (before ++ (str "://" ++ b)) r ?_
      rw [hsplit]
      simp only [List.append_assoc]
    rw [ih hread]
    exact congrArg (fun r => before ++ (str "://" ++ r)) huser

/-- A text that is complete passes as it is. -/
lemma redactText_eq_self (hprintable : ∀ c ∈ text, Printable c) (hclean : NoUserInfo text)
    (hmasked : ∀ field ∈ protectedFields, Masked field text) : redactText text = text := by
  have hfold : ∀ fields, fields ⊆ protectedFields →
      fields.foldl (fun text field => maskField field text.length text) text = text := by
    intro fields
    induction fields with
    | nil => exact fun _ => rfl
    | cons field fields ih =>
      intro hfields
      have hfield := hfields List.mem_cons_self
      have hself := (masks_maskField hfield text).eq_self (hmasked field hfield)
      rw [List.foldl_cons, hself]
      exact ih fun f hf => hfields (List.mem_cons_of_mem _ hf)
  have hcontrols := dropControls_eq_self (Nat.le_refl text.length) hprintable
  have huser := (dropUserInfo_strips (Nat.le_refl text.length)).eq_self hclean
  rw [redactText, hcontrols, huser]
  exact hfold _ (List.Subset.refl _)

end Redaction

end Wpm.JsonOutput
