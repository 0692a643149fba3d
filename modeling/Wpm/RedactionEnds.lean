import Wpm.RedactionLaws
import Mathlib.Data.List.Basic

/-!
When the redaction of a text is complete.

The user information is removed before the fields are masked. A value that is masked may take the
character with it that ended an authority, so that the next `@` names a user again. `EndsStay` says of
the text in between that no authority runs into an `@` in this way: it is kept by every value that is
covered, and without quotes it holds before a value is covered if it does afterwards.
-/

namespace Wpm.JsonOutput

open Wpm.Lib.CString

/-! ### The condition -/

/-- **What stands behind this text is hidden**: the text ends in a value without quotes of a protected
field, which goes on. -/
def Hidden (text : Bytes) : Prop :=
  ∃ before name value, text = before ++ (name ++ value) ∧ fold name ∈ protectedFields ∧
    ∀ c ∈ value, c ∉ valueEnds

/-- No protected field of the text has a value in quotes. -/
def Unquoted (text : Bytes) : Prop :=
  ∀ before name value, text = before ++ (name ++ value) → fold name ∈ protectedFields →
    ¬IsQuote (cur value)

/-- **The character stands where it is behind this text**: no value of a field in the text takes it. -/
def Stays (text : Bytes) (c : UInt8) : Prop := (c ∈ valueEnds ∨ ¬Hidden text) ∧ Unquoted text

/-- **The authorities of the text end before the next `@`**, also when its fields are masked. -/
def EndsStay (text : Bytes) : Prop :=
  ∀ before inside rest, text = before ++ (str "://" ++ (inside ++ ch '@' :: rest)) →
    Hidden before ∨ Hidden (before ++ (str "://" ++ inside)) ∨
      ∃ start c stop, inside = start ++ c :: stop ∧ c ∈ authorityEnds ∧ Stays start c

/-! ### What is hidden -/

section Ends

variable {text out before x y z : Bytes} {c d : UInt8}

/-- Only what stands behind the last end of a value counts. -/
lemma hidden_append_cons (hd : d ∈ valueEnds) : Hidden (x ++ d :: y) ↔ Hidden y := by
  constructor
  · rintro ⟨before, name, value, htext, hname, hvalue⟩
    obtain ⟨field, hfield, hfold⟩ : ∃ field, field ∈ protectedFields ∧ fold name = field :=
      ⟨_, hname, rfl⟩
    have hplain := (fieldName hfield hfold).plain
    have hnot : d ∉ name ++ value := by
      intro hmem
      rcases List.mem_append.1 hmem with hmem | hmem
      · exact (hplain d hmem).2 hd
      · exact hvalue d hmem hd
    rw [← List.append_nil (name ++ value)] at htext
    rcases append_cons_eq_append hnot htext with ⟨w, -, hw⟩ | ⟨a, -, rfl⟩
    · exact absurd hw (by simp)
    · exact ⟨a, name, value, by rw [List.append_nil], hname, hvalue⟩
  · rintro ⟨before, name, value, rfl, hname, hvalue⟩
    exact ⟨x ++ d :: before, name, value, by simp only [List.append_assoc, List.cons_append], hname,
      hvalue⟩

/-- What a field without quotes has for a value does not end. -/
lemma covered_plain {value covered : Bytes} (hopening : opening value = [])
    (hvalue : value = opening value ++ covered ++ closing value) : ∀ c ∈ covered, c ∉ valueEnds := by
  have hq : ¬IsQuote (cur value) := fun h => by
    rw [opening_of_quote h] at hopening
    exact List.cons_ne_nil _ _ hopening
  have hclosing : closing value = value.dropWhile (· ∉ valueEnds) := by
    rw [closing_eq, if_neg hq, inner_of_not_quote hq]
  have hsplit : value.takeWhile (fun c => decide (c ∉ valueEnds)) ++ closing value = value := by
    rw [hclosing]
    exact List.takeWhile_append_dropWhile
  rw [hopening, List.nil_append] at hvalue
  have hcovered : covered = value.takeWhile (fun c => decide (c ∉ valueEnds)) :=
    List.append_cancel_right (hvalue.symm.trans hsplit.symm)
  intro c hc
  rw [hcovered] at hc
  have hdecide := List.mem_takeWhile_imp hc
  exact of_decide_eq_true hdecide

/-- What ends a value is one of these characters. -/
lemma mem_valueEnds_of_ends {value : Bytes} (h : Ends value c) : c ∈ valueEnds := by
  rw [Ends] at h
  split_ifs at h with hq
  · rcases hq with hq | hq <;> rw [h, hq] <;> decide
  · exact h

/-- Behind a value that is covered, something is hidden if it is hidden behind the end of the value,
and only the end itself may stand there before. -/
lemma hidden_closing {value : Bytes} {e : UInt8} {rest : Bytes}
    (hclosing : closing value = y ++ e :: rest)
    (he : e ∉ valueEnds) (x z : Bytes) : Hidden (x ++ y) ↔ Hidden (z ++ y) := by
  have hends := endsAt_closing value
  cases y with
  | nil =>
    rw [hclosing, List.nil_append, endsAt_cons] at hends
    exact absurd (mem_valueEnds_of_ends hends) he
  | cons d y =>
    rw [hclosing, List.cons_append, endsAt_cons] at hends
    have hd := mem_valueEnds_of_ends hends
    rw [hidden_append_cons hd, hidden_append_cons hd]

/-! ### One value -/

/-- The name of a field holds no end of an authority. -/
lemma notMem_name {name : Bytes} (hname : fold name ∈ protectedFields) (hc : c ∈ authorityEnds) :
    c ∉ name := by
  have hchars : ∀ field ∈ protectedFields, field.all (fun c => c ∉ authorityEnds) = true := by decide
  have hlower : ∀ c ∈ authorityEnds, lower c = c := forall_mem_of_all (by decide)
  intro hmem
  have hfold : c ∈ fold name := List.mem_map.2 ⟨c, hmem, hlower c hc⟩
  exact of_decide_eq_true (List.all_eq_true.1 (hchars _ hname) c hfold) hc

lemma notMem_opening {value : Bytes} (hc : ¬IsQuote c) : c ∉ opening value := by
  intro h
  by_cases hq : IsQuote (cur value)
  · rw [opening_of_quote hq, List.mem_singleton] at h
    exact hc (h ▸ hq)
  · rw [opening_of_not_quote hq] at h
    exact absurd h List.not_mem_nil

/-- An end within a value that is covered does not stay. -/
lemma not_stays_covered {name value before w a : Bytes} (hname : fold name ∈ protectedFields)
    (hvalue : value = opening value ++ (w ++ c :: a) ++ closing value) :
    ¬Stays (before ++ (name ++ opening value ++ w)) c := by
  rintro ⟨hends, hunquoted⟩
  have hopening : opening value = [] := by
    by_contra hne
    have hq : IsQuote (cur value) := by
      by_contra hq
      exact hne (opening_of_not_quote hq)
    refine hunquoted before name (opening value ++ w) (by simp only [List.append_assoc]) hname ?_
    rw [opening_of_quote hq]
    exact hq
  have hplain := covered_plain hopening hvalue
  rcases hends with hc | hhidden
  · exact hplain c (List.mem_append_right w List.mem_cons_self) hc
  · refine hhidden ⟨before, name, w, ?_, hname, fun d hd => hplain d (List.mem_append_left _ hd)⟩
    rw [hopening, List.append_nil]

lemma Unquoted.star {covered : Bytes} (h : Unquoted (x ++ (covered ++ y))) :
    Unquoted (x ++ ch '*' :: y) := by
  intro b n v htext hn
  have hstar : ch '*' ∉ n := fun hmem => absurd rfl ((fieldName hn rfl).plain _ hmem).1
  rcases append_cons_eq_append hstar htext with ⟨w, rfl, rfl⟩ | ⟨a, -, rfl⟩
  · cases w with
    | nil => exact star_not_quote
    | cons d w =>
      exact h b n (d :: w ++ (covered ++ y)) (by simp only [List.append_assoc]) hn
  · exact h (x ++ (covered ++ a)) n v (by simp only [List.append_assoc]) hn

/-- An end behind the value stays. -/
lemma Stays.behind {value covered rest : Bytes} (hclosing : closing value = y ++ c :: rest)
    (h : Stays (x ++ (covered ++ y)) c) : Stays (x ++ ch '*' :: y) c := by
  refine ⟨?_, h.2.star⟩
  by_cases hc : c ∈ valueEnds
  · exact .inl hc
  · have hmove := hidden_closing hclosing hc (x ++ covered) (x ++ [ch '*'])
    simp only [List.append_assoc, List.cons_append, List.nil_append] at hmove
    rw [← hmove]
    exact h.1

/-- **A value that is covered leaves the ends of the authorities.** -/
lemma MaskStep.endsStay {field : Bytes} (h : MaskStep field text out) (hfield : field ∈ protectedFields)
    (hends : EndsStay text) : EndsStay out := by
  obtain @⟨before, name, value, covered, hname, hvalue, hne⟩ := h
  have hname' : fold name ∈ protectedFields := hname ▸ hfield
  obtain ⟨first, hfirst⟩ : ∃ first, before ++ (name ++ opening value) = first := ⟨_, rfl⟩
  have htext : before ++ (name ++ value) = first ++ (covered ++ closing value) := by
    conv_lhs => rw [hvalue]
    rw [← hfirst]
    simp only [List.append_assoc]
  have hout : before ++ (name ++ (opening value ++ ch '*' :: closing value)) =
      first ++ ch '*' :: closing value := by
    rw [← hfirst]
    simp only [List.append_assoc]
  rw [htext] at hends
  rw [hout]
  intro b inside rest hsplit
  have hstar : ch '*' ∉ str "://" := by decide
  rcases append_cons_eq_append hstar hsplit with ⟨w, hw, hinside⟩ | ⟨a, rfl, hclosing⟩
  · -- the authority starts before the value
    have hat : ch '*' ∉ [ch '@'] := by decide
    have hsplit' : w ++ ch '*' :: closing value = inside ++ ([ch '@'] ++ rest) := hinside.symm
    rcases append_cons_eq_append hat hsplit' with ⟨v, rfl, -⟩ | ⟨k, rfl, hk⟩
    · -- and so does the `@`
      refine hends b inside (v ++ (covered ++ closing value)) ?_
      rw [hw]
      simp only [List.append_assoc, List.cons_append, List.nil_append]
    · -- the value is in the authority
      have hk' : closing value = k ++ ch '@' :: rest := hk
      obtain ⟨u, rfl⟩ : ∃ u, w = u ++ (name ++ opening value) := by
        have hslash : ch '/' ∉ name ++ opening value := fun hmem =>
          (List.mem_append.1 hmem).elim (notMem_name hname' (by decide)) (notMem_opening (by decide))
        have hat : b ++ str ":/" ++ ch '/' :: w = before ++ (name ++ opening value ++ []) := by
          rw [List.append_nil, hfirst, hw, List.append_assoc]
          rfl
        rcases append_cons_eq_append hslash hat with ⟨w', -, hw'⟩ | ⟨a, -, ha⟩
        · exact absurd hw' (by simp)
        · exact ⟨a, by rw [ha, List.append_nil]⟩
      have h := hends b (u ++ (name ++ opening value) ++ covered ++ k) rest (by
        rw [hw, hk']
        simp only [List.append_assoc])
      have hmove := @hidden_closing k value (ch '@') rest hk' (by decide) (first ++ covered)
        (first ++ [ch '*'])
      rw [hw] at hmove
      simp only [List.append_assoc, List.cons_append, List.nil_append] at h hmove ⊢
      rw [hmove] at h
      refine h.imp_right (Or.imp_right ?_)
      rintro ⟨start, c, stop, hstart, hc, hstays⟩
      have hquote : ¬IsQuote c := by
        rintro (rfl | rfl) <;> exact absurd hc (by decide)
      have hnot : c ∉ name ++ opening value := fun hmem =>
        (List.mem_append.1 hmem).elim (notMem_name hname' hc) (notMem_opening hquote)
      have hstart' : start ++ c :: stop = u ++ (name ++ opening value ++ (covered ++ k)) := by
        rw [← hstart]
        simp only [List.append_assoc]
      rcases append_cons_eq_append hnot hstart' with ⟨w, rfl, hw⟩ | ⟨a, rfl, -⟩
      · rcases append_eq_append_cons hw with ⟨a, rfl⟩ | ⟨a, rfl, rfl⟩
        · -- an end in the value would be hidden
          exact absurd hstays (not_stays_covered hname' hvalue)
        · -- the end stands behind the value
          have hclosing : closing value = a ++ c :: (stop ++ ch '@' :: rest) := by
            rw [hk']
            simp only [List.append_assoc, List.cons_append]
          have hbehind : Stays (u ++ (name ++ opening value) ++ (covered ++ a)) c := by
            simpa only [List.append_assoc] using hstays
          refine ⟨u ++ (name ++ opening value) ++ ch '*' :: a, c, stop, ?_, hc,
            hbehind.behind hclosing⟩
          simp only [List.append_assoc, List.cons_append]
      · refine ⟨start, c, a ++ (name ++ (opening value ++ ch '*' :: k)), ?_, hc, hstays⟩
        simp only [List.append_assoc, List.cons_append]
  · -- the authority starts behind the value
    have hcolon : closing value = a ++ ch ':' :: (str "//" ++ (inside ++ ch '@' :: rest)) := hclosing
    have hat : closing value = (a ++ (str "://" ++ inside)) ++ ch '@' :: rest := by
      rw [hclosing]
      simp only [List.append_assoc]
    have h := hends (first ++ covered ++ a) inside rest (by
      rw [hclosing]
      simp only [List.append_assoc])
    have hmove := @hidden_closing a value (ch ':') _ hcolon (by decide) (first ++ covered)
      (first ++ [ch '*'])
    have hmove' := @hidden_closing _ value (ch '@') _ hat (by decide) (first ++ covered)
      (first ++ [ch '*'])
    simp only [List.append_assoc, List.cons_append, List.nil_append] at h hmove hmove' ⊢
    rwa [← hmove, ← hmove']

/-! ### The text that is left -/

/-- A field that is masked hides nothing but a star. -/
lemma not_hidden_of_masked (hmasked : ∀ field ∈ protectedFields, Masked field (x ++ c :: y))
    (hc : c ∉ valueEnds) (hstar : c ≠ ch '*') : ¬Hidden x := by
  rintro ⟨before, name, value, rfl, hname, hvalue⟩
  have hshort := hmasked _ hname before name (value ++ c :: y)
    (by simp only [List.append_assoc]) rfl
  obtain ⟨covered, hcovered⟩ := exists_covered (value ++ c :: y)
  have hcur : cur (value ++ c :: y) ∉ valueEnds := by
    cases value with
    | nil => exact hc
    | cons d value => exact hvalue d List.mem_cons_self
  have hopening : opening (value ++ c :: y) = [] :=
    opening_of_not_quote fun hq => hcur (by rcases hq with hq | hq <;> rw [hq] <;> decide)
  have hrest : value ++ c :: y = covered ++ closing (value ++ c :: y) := by
    conv_lhs => rw [hcovered, hopening, List.nil_append]
  rcases append_eq_append_cons hrest.symm with ⟨a, rfl⟩ | ⟨a, rfl, hclosing⟩
  · rcases hshort _ hcovered with hnil | hone
    · exact absurd hnil (by simp)
    · cases value with
      | nil => exact hstar (List.cons.inj hone).1
      | cons d value => exact absurd (List.cons.inj hone).2 (by simp)
  · -- the value would end before the character
    have hends := endsAt_closing (covered ++ a ++ c :: y)
    rw [hclosing] at hends
    cases a with
    | nil => exact hc (mem_valueEnds_of_ends (endsAt_cons.1 hends))
    | cons d a =>
      exact hvalue d (List.mem_append_right covered List.mem_cons_self)
        (mem_valueEnds_of_ends (endsAt_cons.1 hends))

lemma noUserInfo_of_endsStay (hmasked : ∀ field ∈ protectedFields, Masked field text)
    (h : EndsStay text) : NoUserInfo text := by
  rintro before rest rfl hat
  obtain ⟨inside, rest', hinside⟩ := List.append_of_mem hat
  obtain ⟨behind, hrest⟩ : spanNot authorityEnds rest <+: rest := List.takeWhile_prefix _
  rw [hinside, List.append_assoc, List.cons_append] at hrest
  subst hrest
  rcases h before inside (rest' ++ behind) rfl with hhidden | hhidden | ⟨start, c, stop, rfl, hc, -⟩
  · exact not_hidden_of_masked hmasked (by decide) (by decide) hhidden
  · rw [← List.append_assoc (str "://"), ← List.append_assoc] at hmasked
    exact not_hidden_of_masked hmasked (by decide) (by decide) hhidden
  · have hmem : c ∈ spanNot authorityEnds (start ++ c :: stop ++ ch '@' :: (rest' ++ behind)) := by
      rw [hinside]
      simp
    have hdecide := List.mem_takeWhile_imp hmem
    exact of_decide_eq_true hdecide hc

/-- **The condition is kept** by the masking of every field. -/
lemma endsStay_redactText (h : EndsStay (unmasked text)) : EndsStay (redactText text) :=
  redactText_induction (p := EndsStay) h fun field hfield text out hmasks htext => by
    have hkept := @Masks.induction_steps field text out EndsStay
      (fun _ _ hstep => hstep.endsStay hfield) hmasks []
    exact hkept htext

/-! ### Texts without quotes -/

/-- No quote stands in the text. -/
def Quoteless (text : Bytes) : Prop := ∀ c ∈ text, ¬IsQuote c

lemma Quoteless.unquoted (h : Quoteless text) : Unquoted text := by
  rintro before name value rfl -
  cases value with
  | nil => exact (by decide : ¬IsQuote 0)
  | cons c value => exact h c (by simp)

lemma MaskStep.quoteless {field : Bytes} (h : MaskStep field text out) (hquoteless : Quoteless text) :
    Quoteless out := by
  obtain @⟨before, name, value, covered, hname, hvalue, hne⟩ := h
  rw [hvalue] at hquoteless
  intro c hc
  by_cases hstar : c = ch '*'
  · rw [hstar]
    exact star_not_quote
  · refine hquoteless c ?_
    simp only [List.mem_append, List.mem_cons] at hc ⊢
    tauto

/-- An authority that starts before a text which ends in an equals sign starts in that text as a
whole. -/
lemma exists_of_scheme {first x b a inside : Bytes} (hlast : first.getLast? = some (ch '='))
    (ha : first = b ++ ch ':' :: a) (h : first ++ x = b ++ ch ':' :: (str "//" ++ inside)) :
    ∃ z, first = b ++ (str "://" ++ z) ∧ inside = z ++ x := by
  rw [ha, List.append_assoc, List.cons_append, List.append_right_inj] at h
  have hslashes : a ++ x = str "//" ++ inside := (List.cons.inj h).2
  rw [ha] at hlast
  match a with
  | [] =>
    rw [List.getLast?_concat] at hlast
    exact absurd hlast (by decide)
  | [d] =>
    have hd : d = ch '/' := (List.cons.inj hslashes).1
    rw [hd, List.getLast?_append_of_ne_nil _ (List.cons_ne_nil _ _)] at hlast
    exact absurd hlast (by decide)
  | d :: e :: z =>
    obtain ⟨hd, hrest⟩ := List.cons.inj hslashes
    obtain ⟨he, hinside⟩ := List.cons.inj hrest
    refine ⟨z, ?_, hinside.symm⟩
    rw [ha, hd, he]
    rfl

/-- **Without quotes the condition holds before a value is covered**, if it does afterwards. -/
lemma MaskStep.endsStay_of {field : Bytes} (h : MaskStep field text out)
    (hfield : field ∈ protectedFields) (hquoteless : Quoteless text) (hends : EndsStay out) :
    EndsStay text := by
  obtain @⟨before, name, value, covered, hname, hvalue, hne⟩ := h
  have hname' : fold name ∈ protectedFields := hname ▸ hfield
  have hopening : opening value = [] := opening_of_not_quote fun hq => by
    cases value with
    | nil => exact absurd hq (by decide)
    | cons c value => exact hquoteless c (by simp) hq
  have hplain := covered_plain hopening hvalue
  have hsplit : value = covered ++ closing value := by
    conv_lhs => rw [hvalue, hopening, List.nil_append]
  obtain ⟨first, hfirst⟩ : ∃ first, before ++ name = first := ⟨_, rfl⟩
  have htext : before ++ (name ++ value) = first ++ (covered ++ closing value) := by
    rw [← hsplit, ← hfirst, List.append_assoc]
  have hhidden : ∀ u v, covered = u ++ v → Hidden (first ++ u) := fun u v hu =>
    ⟨before, name, u, by rw [← hfirst, List.append_assoc], hname',
      fun d hd => hplain d (hu ▸ List.mem_append_left v hd)⟩
  rw [hopening, List.nil_append, ← List.append_assoc, hfirst] at hends
  rw [htext] at hquoteless ⊢
  intro b inside rest hat
  have hat' : first ++ (covered ++ closing value) = b ++ (str "://" ++ inside) ++ ch '@' :: rest := by
    rw [hat]
    simp only [List.append_assoc]
  rcases append_eq_append_cons hat' with ⟨a, rfl⟩ | ⟨w, hw, hrest⟩
  · -- the `@` stands before the value
    refine hends b inside (a ++ ch '*' :: closing value) ?_
    simp only [List.append_assoc, List.cons_append]
  rcases append_eq_append_cons hrest with ⟨a, hcovered⟩ | ⟨k, rfl, hk⟩
  · -- or in it
    rw [hw]
    exact .inr (.inl (hhidden w _ hcovered))
  -- or behind it
  have hmove := fun x z => @hidden_closing k value (ch '@') rest hk (by decide) x z
  have hcolon : first ++ (covered ++ k) = b ++ ch ':' :: (str "//" ++ inside) := hw.symm
  rcases append_eq_append_cons hcolon with ⟨a, ha⟩ | ⟨w, rfl, hrest⟩
  · -- the authority starts before the value
    have hlast : first.getLast? = some (ch '=') := by
      have hends := (fieldName hfield hname).ends
      rw [← hfirst, List.getLast?_append_of_ne_nil _ (fieldName hfield hname).ne_nil, hends]
    obtain ⟨z, hz, hinside⟩ := exists_of_scheme hlast ha hcolon
    have h := hends b (z ++ ch '*' :: k) rest (by
      rw [hz, hk]
      simp only [List.append_assoc, List.cons_append])
    have hmove' := hmove (b ++ (str "://" ++ (z ++ covered))) (b ++ (str "://" ++ (z ++ [ch '*'])))
    simp only [List.append_assoc, List.cons_append, List.nil_append] at hmove'
    rw [hinside, hmove']
    refine h.imp_right (Or.imp_right ?_)
    rintro ⟨start, c, stop, hstart, hc, hstays⟩
    rcases append_eq_append_cons hstart with ⟨a, rfl⟩ | ⟨a, rfl, hk'⟩
    · refine ⟨start, c, a ++ (covered ++ k), ?_, hc, hstays⟩
      simp only [List.append_assoc, List.cons_append]
    cases a with
    | nil =>
      obtain ⟨rfl, -⟩ := List.cons.inj hk'
      exact absurd hc (by decide)
    | cons d a =>
      have hbehind : k = a ++ c :: stop := (List.cons.inj hk').2
      subst hbehind
      have hclosing : closing value = a ++ c :: (stop ++ ch '@' :: rest) := by
        rw [hk]
        simp only [List.append_assoc, List.cons_append]
      have hunquoted : Unquoted (z ++ (covered ++ a)) := by
        refine Quoteless.unquoted fun d hd => hquoteless d ?_
        rw [hz, hclosing]
        simp only [List.mem_append, List.mem_cons] at hd ⊢
        tauto
      refine ⟨z ++ (covered ++ a), c, stop, ?_, hc, ?_, hunquoted⟩
      · simp only [List.append_assoc]
      by_cases hend : c ∈ valueEnds
      · exact .inl hend
      · have hshift := hidden_closing hclosing hend (z ++ covered) (z ++ [ch '*'])
        simp only [List.append_assoc, List.cons_append, List.nil_append] at hshift
        rw [hshift, (List.cons.inj hk').1]
        exact hstays.1
  rcases append_eq_append_cons hrest with ⟨a, hcovered⟩ | ⟨l, rfl, hl⟩
  · exact .inl (hhidden w _ hcovered)
  · -- behind the value
    have hclosing : closing value = l ++ ch ':' :: (str "//" ++ (inside ++ ch '@' :: rest)) := by
      rw [hk, hl]
      simp only [List.append_assoc, List.cons_append]
    have hmove' := @hidden_closing l value (ch ':') _ hclosing (by decide)
    have h := hends (first ++ ch '*' :: l) inside rest (by
      rw [hclosing, List.append_assoc, List.cons_append]
      rfl)
    have hk' : k = l ++ (str "://" ++ inside) := hl
    have hstart := hmove' (first ++ covered) (first ++ [ch '*'])
    have hat := hmove (first ++ covered) (first ++ [ch '*'])
    rw [hk'] at hat
    simp only [List.append_assoc, List.cons_append, List.nil_append] at h hstart hat ⊢
    rwa [hstart, hat]

lemma endsStay_of_noUserInfo (hmasked : ∀ field ∈ protectedFields, Masked field text)
    (hquoteless : Quoteless text) (h : NoUserInfo text) : EndsStay text := by
  rintro before inside rest rfl
  obtain ⟨c, hmem, hc⟩ : ∃ c ∈ inside, c ∈ authorityEnds := by
    by_contra hnone
    refine h before (inside ++ ch '@' :: rest) rfl ?_
    have hinside : ∀ c ∈ inside, decide (c ∉ authorityEnds) = true := fun c hc =>
      decide_eq_true fun hend => hnone ⟨c, hc, hend⟩
    rw [spanNot, List.takeWhile_append_of_pos hinside, List.takeWhile_cons_of_pos (by decide)]
    exact List.mem_append_right inside List.mem_cons_self
  obtain ⟨start, stop, rfl⟩ := List.append_of_mem hmem
  have hstar : c ≠ ch '*' := by
    rintro rfl
    exact absurd hc (by decide)
  refine .inr (.inr ⟨start, c, stop, rfl, hc, ?_, ?_⟩)
  · by_cases hend : c ∈ valueEnds
    · exact .inl hend
    · have hmasked' : ∀ field ∈ protectedFields, Masked field
          (before ++ (str "://" ++ start) ++ c :: (stop ++ ch '@' :: rest)) := by
        simpa only [List.append_assoc, List.cons_append] using hmasked
      refine .inr fun hhidden => not_hidden_of_masked hmasked' hend hstar ?_
      obtain ⟨b, name, value, rfl, hname, hvalue⟩ := hhidden
      exact ⟨before ++ (str "://" ++ b), name, value, by simp only [List.append_assoc], hname, hvalue⟩
  · exact Quoteless.unquoted fun d hd => hquoteless d (by simp [hd])

end Ends

/-! ### Texts -/

end Wpm.JsonOutput
