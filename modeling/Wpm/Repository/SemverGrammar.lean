import Wpm.Repository.Semver

/-!
The grammar of the versions that `semver_parse` reads, and their order.

A text is read when it is a word of the standard's grammar whose numbers fit in 64 bits, or such a
word with a dot after a section: `valid_identifiers` does not see the empty identifier at the end.
-/

namespace Wpm.Repository

open Wpm.Lib.CString Wpm.Lib.Decimal Wpm.Lib.SemVer

/-! ### Numbers -/

lemma parseDigits_append : ∀ {ds rest : Bytes} {r : ℕ}, Digits ds → isDigit (cur rest) = false →
    r < 2 ^ 64 → parseDigits r (ds ++ rest) =
      if r * 10 ^ ds.length + decValue ds < 2 ^ 64 then
        some (r * 10 ^ ds.length + decValue ds, rest)
      else none
  | [], [], r, _, _, hr => by
    rw [if_pos (by simpa [decValue] using hr)]
    simp [parseDigits, decValue]
  | [], c :: rest, r, _, hc, hr => by
    rw [cur_cons] at hc
    rw [if_pos (by simpa [decValue] using hr)]
    simp [parseDigits, decValue, hc]
  | d :: ds, rest, r, hd, hrest, hr => by
    have hdig := hd d List.mem_cons_self
    have hle := digitValue_le hdig
    have hvalue : r * 10 ^ (d :: ds).length + decValue (d :: ds) =
        (r * 10 + digitValue d) * 10 ^ ds.length + decValue ds := by
      rw [decValue_cons, List.length_cons, pow_succ]
      ring
    have hmax : ullongMax = 2 ^ 64 - 1 := rfl
    rw [List.cons_append, parseDigits, if_pos hdig, hvalue]
    by_cases hover : (ullongMax - digitValue d) / 10 < r
    · have hbig : 2 ^ 64 ≤ r * 10 + digitValue d := by omega
      have hpow : 1 ≤ 10 ^ ds.length := Nat.one_le_pow _ _ (by decide)
      rw [if_pos hover, if_neg]
      nlinarith [Nat.mul_le_mul hbig hpow]
    · rw [if_neg hover]
      exact parseDigits_append (fun x hx => hd x (List.mem_cons_of_mem d hx)) hrest (by omega)

/-- A number is read up to the first character that is no digit. -/
lemma parseNumber_append {ds rest : Bytes} (h : Numeric ds) (hrest : isDigit (cur rest) = false) :
    parseNumber (ds ++ rest) = if decValue ds < 2 ^ 64 then some (decValue ds, rest) else none := by
  obtain ⟨hne, hd, hz⟩ := h
  have hguard : ¬(isDigit (cur (ds ++ rest)) = false ∨
      (cur (ds ++ rest) = ch '0' ∧ isDigit (cur (ds ++ rest).tail))) := by
    rintro (h | ⟨h0, h⟩)
    · cases ds with
      | nil => exact hne rfl
      | cons d ds => exact absurd (hd d List.mem_cons_self) (by simpa using h)
    · match ds, hne, hz with
      | [d], _, _ => exact absurd h (by simpa using hrest)
      | d :: e :: ds, _, hz => exact hz (by simpa using h0)
  rw [parseNumber, if_neg hguard, parseDigits_append hd hrest (by decide), zero_mul, zero_add]

/-- What has been read is a numeric identifier that fits. -/
lemma parseNumber_inv {p rest : Bytes} {n : ℕ} (h : parseNumber p = some (n, rest)) :
    ∃ ds, Numeric ds ∧ p = ds ++ rest ∧ n = decValue ds ∧ decValue ds < 2 ^ 64 ∧
      isDigit (cur rest) = false := by
  have hcut : p.takeWhile isDigit ++ p.dropWhile isDigit = p := List.takeWhile_append_dropWhile
  have hd : Digits (p.takeWhile isDigit) := fun c hc => List.mem_takeWhile_imp hc
  have hrest : isDigit (cur (p.dropWhile isDigit)) = false := by
    cases hp : p.dropWhile isDigit with
    | nil => rfl
    | cons c q =>
      have hc := List.head_dropWhile_not isDigit (l := p) (by rw [hp]; exact List.cons_ne_nil c q)
      simpa [hp] using hc
  have hnum : Numeric (p.takeWhile isDigit) := by
    rw [parseNumber, ite_eq_iff] at h
    obtain ⟨-, h⟩ | ⟨hguard, -⟩ := h
    · exact absurd h (by simp)
    · rw [not_or] at hguard
      match p, hguard with
      | [], hg => exact absurd rfl hg.1
      | [c], hg =>
        have hc : isDigit c = true := by simpa using hg.1
        rw [List.takeWhile_cons_of_pos hc]
        exact ⟨List.cons_ne_nil _ _, by simpa [Digits] using hc, trivial⟩
      | c :: e :: p, hg =>
        have hc : isDigit c = true := by simpa using hg.1
        rw [List.takeWhile_cons_of_pos hc] at hd ⊢
        refine ⟨List.cons_ne_nil _ _, hd, ?_⟩
        by_cases he : isDigit e = true
        · rw [List.takeWhile_cons_of_pos he]
          intro h0
          exact hg.2 ⟨by simpa using h0, by simpa using he⟩
        · rw [List.takeWhile_cons_of_neg he]
          trivial
  rw [← hcut, parseNumber_append hnum hrest, ite_eq_iff] at h
  obtain ⟨hlt, h⟩ | ⟨-, h⟩ := h
  · obtain ⟨rfl, rfl⟩ := Prod.mk.inj (Option.some.inj h)
    exact ⟨_, hnum, hcut.symm, rfl, hlt, hrest⟩
  · exact absurd h (by simp)

/-! ### Identifiers -/

/-- What `valid_identifiers` demands of an identifier, by the standard's names. -/
def ValidIdentifier (prerelease : Bool) (s : Bytes) : Prop :=
  if prerelease then PrereleaseIdentifier s else BuildIdentifier s

lemma validIdentifier_iff {prerelease : Bool} {s : Bytes} :
    validIdentifier prerelease s = true ↔ ValidIdentifier prerelease s := by
  have hchars : (s.all fun c => isAlnum c || c = ch '-') = true ↔ ∀ c ∈ s, IdentifierChar c := by
    simp [IdentifierChar]
  have hzero : (s.all isDigit && 1 < s.length && cur s = ch '0') = false ↔
      (Digits s → NoLeadingZero s) := by
    match s with
    | [] => simp [NoLeadingZero]
    | [c] => simp [NoLeadingZero]
    | c :: d :: s => by_cases h0 : c = ch '0' <;> simp [NoLeadingZero, Digits, h0]
  cases prerelease
  · simp [validIdentifier, ValidIdentifier, BuildIdentifier, hchars]
  · simp only [validIdentifier, ValidIdentifier, PrereleaseIdentifier, BuildIdentifier,
      Bool.and_eq_true, Bool.not_eq_true', Bool.true_and, hchars, hzero, decide_eq_true_eq, if_true]

lemma ValidIdentifier.build {prerelease : Bool} {s : Bytes} (h : ValidIdentifier prerelease s) :
    BuildIdentifier s := by
  cases prerelease
  · exact h
  · exact h.1

lemma IdentifierChar.ne {c : UInt8} (h : IdentifierChar c) : c ≠ ch '.' ∧ c ≠ ch '+' := by
  simp only [IdentifierChar, isAlnum, isDigit, ch] at h ⊢
  grind

lemma dotted_cons (id : Bytes) (ids : List Bytes) :
    dotted (id :: ids) = id ++ if ids = [] then [] else ch '.' :: dotted ids := by
  cases ids with
  | nil => simp [dotted, List.intercalate]
  | cons id' ids => simp [dotted, List.intercalate, List.intersperse]

/-- The dot that may end a section. -/
def trail (dot : Bool) : Bytes := if dot then [ch '.'] else []

/-- The identifier in front is cut off at its dot. -/
lemma firstIdentifier_append {id : Bytes} (h : ch '.' ∉ id) (rest : Bytes) :
    firstIdentifier (id ++ ch '.' :: rest) = (id, rest) ∧ firstIdentifier id = (id, []) := by
  have hall : ∀ c ∈ id, decide (c ≠ ch '.') = true := fun c hc =>
    decide_eq_true fun he => h (he ▸ hc)
  constructor
  · rw [firstIdentifier, List.takeWhile_append_of_pos hall, List.dropWhile_append_of_pos hall]
    simp
  · rw [firstIdentifier, List.takeWhile_eq_self_iff.2 hall, List.dropWhile_eq_nil_iff.2 hall]
    rfl

lemma validIdentifiers_succ {prerelease : Bool} {fuel : ℕ} {s : Bytes} (h : s ≠ []) :
    validIdentifiers prerelease (fuel + 1) s = true ↔
      ValidIdentifier prerelease (firstIdentifier s).1 ∧
        validIdentifiers prerelease fuel (firstIdentifier s).2 = true := by
  rw [validIdentifiers, Bool.or_eq_true, decide_eq_true_iff, or_iff_right h, Bool.and_eq_true,
    validIdentifier_iff]

/-- A list of valid identifiers is accepted, also with a dot after it. -/
lemma validIdentifiers_dotted {prerelease dot : Bool} : ∀ {ids : List Bytes} {fuel : ℕ}, ids ≠ [] →
    (∀ id ∈ ids, ValidIdentifier prerelease id) → (dotted ids ++ trail dot).length ≤ fuel →
    validIdentifiers prerelease fuel (dotted ids ++ trail dot) = true
  | id :: ids, fuel, _, hids, hfuel => by
    have hid := hids id List.mem_cons_self
    have hne : id ≠ [] := hid.build.1
    have hdot : ch '.' ∉ id := fun h => (IdentifierChar.ne (hid.build.2 _ h)).1 rfl
    have hcut := firstIdentifier_append hdot
    have hs : dotted (id :: ids) ++ trail dot ≠ [] := by simp [dotted_cons, hne]
    obtain ⟨fuel, rfl⟩ : ∃ n, fuel = n + 1 :=
      ⟨fuel - 1, by have := List.length_pos_of_ne_nil hs; omega⟩
    rw [validIdentifiers_succ hs]
    by_cases hnil : ids = []
    · subst hnil
      rw [dotted_cons, if_pos rfl, List.append_nil]
      cases dot
      · rw [trail, if_neg Bool.false_ne_true, List.append_nil, (hcut []).2]
        exact ⟨hid, by cases fuel <;> simp [validIdentifiers]⟩
      · rw [trail, if_pos rfl, (hcut []).1]
        exact ⟨hid, by cases fuel <;> simp [validIdentifiers]⟩
    · rw [dotted_cons, if_neg hnil, List.append_assoc, List.cons_append, List.length_append,
        List.length_cons] at hfuel
      rw [dotted_cons, if_neg hnil, List.append_assoc, List.cons_append, (hcut _).1]
      exact ⟨hid, validIdentifiers_dotted hnil
        (fun x hx => hids x (List.mem_cons_of_mem id hx)) (by omega)⟩

/-- Nothing else is accepted. -/
lemma validIdentifiers_inv {prerelease : Bool} : ∀ {fuel : ℕ} {s : Bytes}, s ≠ [] →
    s.length ≤ fuel → validIdentifiers prerelease fuel s = true →
    ∃ ids dot, ids ≠ [] ∧ (∀ id ∈ ids, ValidIdentifier prerelease id) ∧ s = dotted ids ++ trail dot
  | 0, s, hs, hfuel, _ => absurd (List.eq_nil_of_length_eq_zero (Nat.le_zero.1 hfuel)) hs
  | fuel + 1, s, hs, hfuel, h => by
    obtain ⟨hid, hrest⟩ := (validIdentifiers_succ hs).1 h
    have hcut : s.takeWhile (· ≠ ch '.') ++ s.dropWhile (· ≠ ch '.') = s :=
      List.takeWhile_append_dropWhile
    have hlen := length_firstIdentifier_lt hs
    cases hd : s.dropWhile (· ≠ ch '.') with
    | nil =>
      refine ⟨[(firstIdentifier s).1], false, by simp, by simpa using hid, ?_⟩
      rw [hd, List.append_nil] at hcut
      simpa [dotted_cons, trail, firstIdentifier] using hcut.symm
    | cons c t =>
      have hc : c = ch '.' := by
        have := List.head_dropWhile_not (fun c => decide (c ≠ ch '.')) (l := s)
          (by rw [hd]; exact List.cons_ne_nil c t)
        simp only [hd, List.head_cons] at this
        simpa using this
      have hsnd : (firstIdentifier s).2 = t := by rw [firstIdentifier, hd, List.tail_cons]
      have hs' : s = (firstIdentifier s).1 ++ ch '.' :: t := by
        rw [hd, hc] at hcut
        exact hcut.symm
      rw [hsnd] at hrest hlen
      by_cases ht : t = []
      · subst ht
        refine ⟨[(firstIdentifier s).1], true, by simp, by simpa using hid, ?_⟩
        simpa [dotted_cons, trail] using hs'
      · obtain ⟨ids, dot, hne, hids, rfl⟩ := validIdentifiers_inv ht (by omega) hrest
        refine ⟨(firstIdentifier s).1 :: ids, dot, by simp, ?_, ?_⟩
        · intro id h
          rcases List.mem_cons.1 h with rfl | h
          · exact hid
          · exact hids id h
        · rw [dotted_cons, if_neg hne, List.append_assoc, List.cons_append]
          exact hs'

/-! ### Versions -/

/-- The rest of `semver_parse` after the three numbers. -/
def semverSections (major minor patch : ℕ) (p : Bytes) : Option Semver := do
  let pre := if cur p = ch '-' then some (p.tail.takeWhile (· ≠ ch '+')) else none
  let p := if cur p = ch '-' then p.tail.dropWhile (· ≠ ch '+') else p
  let plus := if cur p = ch '+' then some p.tail else none
  guard (plus.isSome ∨ p = [])
  guard (pre.all fun s => s ≠ [] && validIdentifiers true s.length s)
  guard (plus.all fun s => s ≠ [] && validIdentifiers false s.length s)
  some { major, minor, patch, prerelease := pre }

lemma semverParse_core {major minor patch p : Bytes} (h : Numeric major ∧ Numeric minor ∧ Numeric patch)
    (hp : isDigit (cur p) = false) :
    semverParse (major ++ ch '.' :: (minor ++ ch '.' :: (patch ++ p))) =
      if decValue major < 2 ^ 64 ∧ decValue minor < 2 ^ 64 ∧ decValue patch < 2 ^ 64 then
        semverSections (decValue major) (decValue minor) (decValue patch) p
      else none := by
  have hdot : ∀ s : Bytes, isDigit (cur (ch '.' :: s)) = false := fun _ => rfl
  unfold semverParse
  rw [parseNumber_append h.1 (hdot _)]
  by_cases h1 : decValue major < 2 ^ 64
  · rw [if_pos h1]
    simp only [Option.bind_eq_bind, Option.bind_some, cur_cons, guard, if_true, Option.pure_def,
      List.tail_cons]
    rw [parseNumber_append h.2.1 (hdot _)]
    by_cases h2 : decValue minor < 2 ^ 64
    · rw [if_pos h2]
      simp only [Option.bind_some, cur_cons, if_true, List.tail_cons]
      rw [parseNumber_append h.2.2 hp]
      by_cases h3 : decValue patch < 2 ^ 64
      · rw [if_pos h3, if_pos ⟨h1, h2, h3⟩]
        rfl
      · rw [if_neg h3, if_neg fun h => h3 h.2.2]
        rfl
    · rw [if_neg h2, if_neg fun h => h2 h.2.1]
      rfl
  · rw [if_neg h1, if_neg fun h => h1 h.1]
    rfl

/-- What `semver_parse` has read before the sections. -/
lemma semverParse_inv {text : Bytes} {v : Semver} (h : semverParse text = some v) :
    ∃ major minor patch p, (Numeric major ∧ Numeric minor ∧ Numeric patch) ∧
      isDigit (cur p) = false ∧ text = major ++ ch '.' :: (minor ++ ch '.' :: (patch ++ p)) := by
  have hdot : ∀ {p : Bytes}, cur p = ch '.' → p = ch '.' :: p.tail := by
    rintro (_ | ⟨c, p⟩) hp
    · exact absurd hp (by decide)
    · rw [← hp]
      rfl
  simp only [semverParse, Option.bind_eq_bind, Option.bind_eq_some_iff, Option.guard_eq_some'] at h
  obtain ⟨⟨n1, p1⟩, h1, -, hd1, ⟨n2, p2⟩, h2, -, hd2, ⟨n3, p3⟩, h3, -⟩ := h
  obtain ⟨major, hm, rfl, -⟩ := parseNumber_inv h1
  obtain ⟨minor, hn, he2, -⟩ := parseNumber_inv h2
  obtain ⟨patch, hq, he3, -, -, hp3⟩ := parseNumber_inv h3
  have hp1 : p1 = ch '.' :: (minor ++ p2) := (hdot hd1).trans (congrArg _ he2)
  have hp2 : p2 = ch '.' :: (patch ++ p3) := (hdot hd2).trans (congrArg _ he3)
  exact ⟨major, minor, patch, p3, ⟨hm, hn, hq⟩, hp3, by rw [hp1, hp2]⟩

/-- The sign and the identifiers of a section, with a dot after them if `dot` says so. -/
def dottedPart (sign : Char) (ids : Option (List Bytes)) (dot : Bool) : Bytes :=
  match ids with
  | none => []
  | some ids => ch sign :: (dotted ids ++ trail dot)

/-- The word, with a dot after its prerelease section or after its build section. -/
def spelled (l : Literal) (pre build : Bool) : Bytes :=
  l.core ++ (dottedPart '-' l.prerelease pre ++ dottedPart '+' l.build build)

lemma spelled_false (l : Literal) : spelled l false false = l.text := by
  have hpart : ∀ (sign : Char) (ids : Option (List Bytes)),
      dottedPart sign ids false = Literal.part sign ids := by
    intro sign ids
    cases ids <;> simp [dottedPart, Literal.part, trail]
  rw [spelled, Literal.text, hpart, hpart]

/-- The dots of the identifiers and the one after them are no plus signs. -/
lemma plus_notMem {ids : List Bytes} {dot : Bool} (h : ∀ id ∈ ids, BuildIdentifier id) :
    ch '+' ∉ dotted ids ++ trail dot := by
  have hdot : ch '+' ∉ trail dot := by cases dot <;> decide
  intro hmem
  refine (List.mem_append.1 hmem).elim (fun hmem => ?_) hdot
  induction ids with
  | nil => exact absurd hmem (by simp [dotted, List.intercalate])
  | cons id ids ih =>
    rw [dotted_cons] at hmem
    rcases List.mem_append.1 hmem with hmem | hmem
    · exact (IdentifierChar.ne ((h id List.mem_cons_self).2 _ hmem)).2 rfl
    · split_ifs at hmem
      · exact absurd hmem List.not_mem_nil
      · rcases List.mem_cons.1 hmem with he | hmem
        · exact absurd he (by decide)
        · exact ih (fun x hx => h x (List.mem_cons_of_mem id hx))
            (List.mem_append_left _ hmem) hmem

/-- What `semver_parse` asks of a section. -/
def sectionOk (prerelease : Bool) (s : Bytes) : Bool :=
  s ≠ [] && validIdentifiers prerelease s.length s

lemma sectionOk_iff {prerelease : Bool} {s : Bytes} : sectionOk prerelease s = true ↔
    ∃ ids dot, (ids ≠ [] ∧ ∀ id ∈ ids, ValidIdentifier prerelease id) ∧
      s = dotted ids ++ trail dot := by
  rw [sectionOk, Bool.and_eq_true, decide_eq_true_iff]
  constructor
  · rintro ⟨hs, h⟩
    obtain ⟨ids, dot, hne, hids, he⟩ := validIdentifiers_inv hs le_rfl h
    exact ⟨ids, dot, ⟨hne, hids⟩, he⟩
  · rintro ⟨ids, dot, ⟨hne, hids⟩, rfl⟩
    refine ⟨?_, validIdentifiers_dotted hne hids le_rfl⟩
    obtain ⟨id, ids', rfl⟩ := List.exists_cons_of_ne_nil hne
    have hid := (hids id List.mem_cons_self).build.1
    simp [dotted_cons, hid]

/-! The shapes of what follows the numbers. -/

section

variable {major minor patch : ℕ} {s t : Bytes}

lemma semverSections_nil : semverSections major minor patch [] =
    some ⟨major, minor, patch, none⟩ := by
  simp [semverSections, guard, ch]

lemma semverSections_plus : semverSections major minor patch (ch '+' :: s) =
    if sectionOk false s = true then some ⟨major, minor, patch, none⟩ else none := by
  by_cases h : sectionOk false s = true
  · rw [if_pos h]
    simp only [sectionOk, Bool.and_eq_true, decide_eq_true_iff] at h
    simp [semverSections, guard, ch, h]
  · rw [if_neg h]
    simp only [sectionOk, Bool.and_eq_true, decide_eq_true_iff] at h
    simp [semverSections, guard, ch, h]

/-- A prerelease section ends at the first plus sign. -/
lemma cut_plus (hs : ch '+' ∉ s) (ht : t = [] ∨ cur t = ch '+') :
    (s ++ t).takeWhile (· ≠ ch '+') = s ∧ (s ++ t).dropWhile (· ≠ ch '+') = t := by
  have hall : ∀ c ∈ s, decide (c ≠ ch '+') = true := fun c hc =>
    decide_eq_true fun he => hs (he ▸ hc)
  rw [List.takeWhile_append_of_pos hall, List.dropWhile_append_of_pos hall]
  rcases t with _ | ⟨c, t⟩
  · simp
  · have hc : c = ch '+' := ht.resolve_left (List.cons_ne_nil c t)
    simp [hc]

lemma semverSections_minus (hs : ch '+' ∉ s) : semverSections major minor patch (ch '-' :: s) =
    if sectionOk true s = true then some ⟨major, minor, patch, some s⟩ else none := by
  obtain ⟨h1, h2⟩ := cut_plus hs (.inl rfl : ([] : Bytes) = [] ∨ _)
  rw [List.append_nil] at h1 h2
  simp only [semverSections, cur_cons, if_true, List.tail_cons, h1, h2, Option.all_some]
  by_cases h : sectionOk true s = true
  · rw [if_pos h]
    rw [sectionOk] at h
    simp only [h]
    simp [guard, ch]
  · rw [if_neg h]
    rw [sectionOk] at h
    simp only [h]
    simp [guard]

lemma semverSections_both (hs : ch '+' ∉ s) :
    semverSections major minor patch (ch '-' :: (s ++ ch '+' :: t)) =
      if sectionOk true s = true ∧ sectionOk false t = true then
        some ⟨major, minor, patch, some s⟩
      else none := by
  obtain ⟨h1, h2⟩ := cut_plus hs (.inr rfl : ch '+' :: t = [] ∨ cur (ch '+' :: t) = ch '+')
  simp only [semverSections, cur_cons, if_true, List.tail_cons, h1, h2, Option.all_some,
    ← sectionOk.eq_1]
  cases sectionOk true s <;> cases sectionOk false t <;> simp [guard]

end

/-- What `semver_parse` returns for a word, with or without the dots. -/
def semverOf (l : Literal) (pre : Bool) : Semver where
  major := decValue l.major
  minor := decValue l.minor
  patch := decValue l.patch
  prerelease := l.prerelease.map fun ids => dotted ids ++ trail pre

lemma semverSections_spelled (l : Literal) (pre build : Bool) :
    semverSections (decValue l.major) (decValue l.minor) (decValue l.patch)
      (dottedPart '-' l.prerelease pre ++ dottedPart '+' l.build build) =
      some (semverOf l pre) := by
  have hb : ∀ ids ∈ l.build, sectionOk false (dotted ids ++ trail build) = true :=
    fun ids h => sectionOk_iff.2 ⟨ids, build, l.build_valid ids h, rfl⟩
  have hp : ∀ ids ∈ l.prerelease, sectionOk true (dotted ids ++ trail pre) = true :=
    fun ids h => sectionOk_iff.2 ⟨ids, pre, l.prerelease_valid ids h, rfl⟩
  have hplus : ∀ ids ∈ l.prerelease, ch '+' ∉ dotted ids ++ trail pre := fun ids h =>
    plus_notMem fun id hid => ((l.prerelease_valid ids h).2 id hid).1
  unfold semverOf
  cases hpre : l.prerelease with
  | none =>
    cases hbuild : l.build with
    | none => exact semverSections_nil
    | some ids => exact semverSections_plus.trans (if_pos (hb ids hbuild))
  | some pids =>
    have hplus := hplus pids hpre
    cases hbuild : l.build with
    | none =>
      rw [dottedPart, dottedPart, List.append_nil]
      exact (semverSections_minus hplus).trans (if_pos (hp pids hpre))
    | some ids =>
      exact (semverSections_both hplus).trans (if_pos ⟨hp pids hpre, hb ids hbuild⟩)

/-- **A word, with or without the dots, is read** if its numbers fit. -/
lemma semverParse_spelled (l : Literal) (pre build : Bool) :
    semverParse (spelled l pre build) =
      if decValue l.major < 2 ^ 64 ∧ decValue l.minor < 2 ^ 64 ∧ decValue l.patch < 2 ^ 64 then
        some (semverOf l pre)
      else none := by
  have hcur : isDigit (cur (dottedPart '-' l.prerelease pre ++ dottedPart '+' l.build build)) =
      false := by
    cases l.prerelease <;> cases l.build <;> rfl
  have hassoc : spelled l pre build = l.major ++ ch '.' :: (l.minor ++ ch '.' :: (l.patch ++
      (dottedPart '-' l.prerelease pre ++ dottedPart '+' l.build build))) := by
    simp [spelled, Literal.core]
  rw [hassoc, semverParse_core l.numeric hcur, semverSections_spelled]

lemma semverParse_spelled_iff {l : Literal} {pre build : Bool} {v : Semver} :
    semverParse (spelled l pre build) = some v ↔ l.Below (2 ^ 64) ∧ semverOf l pre = v := by
  rw [semverParse_spelled, Option.ite_none_right_eq_some, Option.some.injEq]
  rfl

lemma semverParse_text_iff {l : Literal} {v : Semver} :
    semverParse l.text = some v ↔ l.Below (2 ^ 64) ∧ semverOf l false = v := by
  rw [← spelled_false, semverParse_spelled_iff]

/-- The sections that are accepted. -/
lemma semverSections_inv {major minor patch : ℕ} {p : Bytes}
    (h : semverSections major minor patch p ≠ none) :
    ∃ (pids ids : Option (List Bytes)) (pre build : Bool),
      (∀ l ∈ pids, l ≠ [] ∧ ∀ id ∈ l, PrereleaseIdentifier id) ∧
      (∀ l ∈ ids, l ≠ [] ∧ ∀ id ∈ l, BuildIdentifier id) ∧
      p = dottedPart '-' pids pre ++ dottedPart '+' ids build := by
  rcases p with _ | ⟨c, p⟩
  · exact ⟨none, none, false, false, by simp, by simp, rfl⟩
  by_cases hc : c = ch '+'
  · subst hc
    rw [semverSections_plus] at h
    obtain ⟨ids, dot, hids, rfl⟩ := sectionOk_iff.1 (by_contra fun hn => h (if_neg hn))
    exact ⟨none, some ids, false, dot, by simp, fun l hl => Option.some.inj hl ▸ hids, rfl⟩
  by_cases hc' : c = ch '-'
  · subst hc'
    by_cases hplus : ch '+' ∈ p
    · obtain ⟨s, t, rfl, hs⟩ := List.eq_append_cons_of_mem hplus
      rw [semverSections_both hs] at h
      have hok := by_contra fun hn => h (if_neg hn)
      obtain ⟨pids, pre, hpids, rfl⟩ := sectionOk_iff.1 hok.1
      obtain ⟨ids, dot, hids, rfl⟩ := sectionOk_iff.1 hok.2
      exact ⟨some pids, some ids, pre, dot, fun l hl => Option.some.inj hl ▸ hpids,
        fun l hl => Option.some.inj hl ▸ hids, rfl⟩
    · rw [semverSections_minus hplus] at h
      obtain ⟨pids, pre, hpids, rfl⟩ := sectionOk_iff.1 (by_contra fun hn => h (if_neg hn))
      exact ⟨some pids, none, pre, false, fun l hl => Option.some.inj hl ▸ hpids, by simp,
        (List.append_nil _).symm⟩
  · exact absurd (by simp [semverSections, guard, hc, hc']) h

/-- **Nothing else is read.** -/
lemma exists_spelled {text : Bytes} {v : Semver} (h : semverParse text = some v) :
    ∃ (l : Literal) (pre build : Bool), text = spelled l pre build := by
  obtain ⟨major, minor, patch, p, hnum, hp, rfl⟩ := semverParse_inv h
  rw [semverParse_core hnum hp, ite_eq_iff] at h
  obtain ⟨-, h⟩ | ⟨-, h⟩ := h
  · obtain ⟨pids, ids, pre, build, hpids, hids, rfl⟩ :=
      semverSections_inv (h ▸ Option.some_ne_none v)
    exact ⟨⟨major, minor, patch, pids, ids, hnum, hpids, hids⟩, pre, build,
      by simp [spelled, Literal.core]⟩
  · exact absurd h (by simp)

/-! ### What is read -/

/-- `semver_parse` accepts the text exactly if it is a word of the grammar whose numbers are below
`2 ^ 64`, and returns the parts of the word. -/
structure ReadsGrammar (text : Bytes) : Prop where
  accepts : (semverParse text).isSome = true ↔ ∃ l : Literal, l.text = text ∧ l.Below (2 ^ 64)
  returns : ∀ (v : Semver) (l : Literal), semverParse text = some v → l.text = text →
    v = ⟨decValue l.major, decValue l.minor, decValue l.patch, l.prerelease.map dotted⟩

/-- A word with a dot after its prerelease section, or one after its build section. -/
def TrailingDot (text : Bytes) : Prop :=
  ∃ (l : Literal) (pre build : Bool), l.Below (2 ^ 64) ∧ text = spelled l pre build ∧
    (pre = true ∧ l.prerelease.isSome = true ∨ build = true ∧ l.build.isSome = true)

/-- The last identifier ends the list. -/
lemma getLast?_dotted : ∀ {ids : List Bytes}, ids ≠ [] → (∀ id ∈ ids, BuildIdentifier id) →
    ∃ c, (dotted ids).getLast? = some c ∧ IdentifierChar c
  | id :: ids, _, h => by
    have hid := h id List.mem_cons_self
    by_cases hnil : ids = []
    · subst hnil
      rw [dotted_cons, if_pos rfl, List.append_nil, List.getLast?_eq_some_getLast hid.1]
      exact ⟨_, rfl, hid.2 _ (List.getLast_mem hid.1)⟩
    · obtain ⟨c, hc, hcc⟩ := getLast?_dotted hnil fun x hx => h x (List.mem_cons_of_mem id hx)
      refine ⟨c, ?_, hcc⟩
      rw [dotted_cons, if_neg hnil, List.getLast?_append, List.getLast?_cons, hc]
      rfl

/-- No list of identifiers ends with a dot. -/
lemma dotted_ne_trail {ids : List Bytes} (hne : ids ≠ []) (h : ∀ id ∈ ids, BuildIdentifier id)
    (s : Bytes) : dotted ids ≠ s ++ trail true := by
  obtain ⟨c, hc, hcc⟩ := getLast?_dotted hne h
  intro he
  rw [he, trail, if_pos rfl, List.getLast?_append_cons] at hc
  exact (IdentifierChar.ne hcc).1 (Option.some.inj hc).symm

/-- A word ends with a character of an identifier. -/
lemma text_ne_trail (l : Literal) (s : Bytes) : l.text ≠ s ++ trail true := by
  have hlast : ∃ c, l.text.getLast? = some c ∧ IdentifierChar c := by
    rw [Literal.text]
    cases hb : l.build with
    | some ids =>
      obtain ⟨hne, hids⟩ := l.build_valid ids hb
      obtain ⟨c, hc, hcc⟩ := getLast?_dotted hne hids
      refine ⟨c, ?_, hcc⟩
      rw [← List.append_assoc, List.getLast?_append, Literal.part, List.getLast?_cons, hc]
      rfl
    | none => cases hp : l.prerelease with
      | some ids =>
        obtain ⟨hne, hids⟩ := l.prerelease_valid ids hp
        obtain ⟨c, hc, hcc⟩ := getLast?_dotted hne fun id hid => (hids id hid).1
        refine ⟨c, ?_, hcc⟩
        rw [Literal.part, Literal.part, List.append_nil, List.getLast?_append, List.getLast?_cons,
          hc]
        rfl
      | none =>
        obtain ⟨hne, hd, -⟩ := l.numeric.2.2
        refine ⟨l.patch.getLast hne, ?_, .inl ?_⟩
        · rw [Literal.part, Literal.part, List.append_nil, List.append_nil, Literal.core,
            List.getLast?_append, List.getLast?_cons, List.getLast?_append, List.getLast?_cons,
            List.getLast?_eq_some_getLast hne]
          rfl
        · simp [isAlnum, hd _ (List.getLast_mem hne)]
  obtain ⟨c, hc, hcc⟩ := hlast
  intro he
  rw [he, trail, if_pos rfl, List.getLast?_append_cons] at hc
  exact (IdentifierChar.ne hcc).1 (Option.some.inj hc).symm

/-- **With such a dot a text is no word.** -/
lemma text_ne_of_trailingDot {text : Bytes} (h : TrailingDot text) (l' : Literal) :
    l'.text ≠ text := by
  obtain ⟨l, pre, build, hlt, rfl, hdot⟩ := h
  intro he
  rcases hdot with ⟨rfl, hsome⟩ | ⟨rfl, hsome⟩
  · have hread : semverParse (spelled l true build) = some (semverOf l true) :=
      semverParse_spelled_iff.2 ⟨hlt, rfl⟩
    rw [← he] at hread
    obtain ⟨ids, hids⟩ := Option.isSome_iff_exists.1 hsome
    have hpre : (semverOf l' false).prerelease = (semverOf l true).prerelease :=
      congrArg Semver.prerelease (semverParse_text_iff.1 hread).2
    simp only [semverOf, hids, Option.map_some] at hpre
    obtain ⟨ids', hids', heq⟩ := Option.map_eq_some_iff.1 hpre
    obtain ⟨hne, hvalid⟩ := l'.prerelease_valid ids' hids'
    refine dotted_ne_trail hne (fun id hid => (hvalid id hid).1) (dotted ids) ?_
    simpa [trail] using heq
  · obtain ⟨ids, hids⟩ := Option.isSome_iff_exists.1 hsome
    refine text_ne_trail l' (l.core ++ (dottedPart '-' l.prerelease pre ++ ch '+' :: dotted ids)) ?_
    rw [he, spelled, hids]
    simp [dottedPart]

/-- A dot is no matter where there is no section. -/
lemma spelled_eq_text {l : Literal} {pre build : Bool}
    (h : ¬(pre = true ∧ l.prerelease.isSome = true ∨ build = true ∧ l.build.isSome = true)) :
    spelled l pre build = l.text := by
  rw [not_or] at h
  rw [← spelled_false, spelled, spelled]
  have hpart : ∀ {sign : Char} {ids : Option (List Bytes)} {dot : Bool},
      ¬(dot = true ∧ ids.isSome = true) → dottedPart sign ids dot = dottedPart sign ids false := by
    rintro sign (_ | ids) (_ | _) hdot
    · rfl
    · rfl
    · rfl
    · exact absurd ⟨rfl, rfl⟩ hdot
  rw [hpart h.1, hpart h.2]

/-- **What `semver_parse` reads**: the grammar, and also its words with a dot after a section. -/
theorem readsGrammar_iff (text : Bytes) : ReadsGrammar text ↔ ¬TrailingDot text := by
  constructor
  · intro h hdot
    obtain ⟨l, pre, build, hlt, he, -⟩ := id hdot
    have hsome : (semverParse text).isSome = true := by
      rw [he, semverParse_spelled_iff.2 ⟨hlt, rfl⟩]
      rfl
    obtain ⟨l', hl', -⟩ := h.accepts.1 hsome
    exact text_ne_of_trailingDot hdot l' hl'
  · intro h
    refine ⟨⟨fun hsome => ?_, ?_⟩, ?_⟩
    · obtain ⟨v, hv⟩ := Option.isSome_iff_exists.1 hsome
      obtain ⟨l, pre, build, rfl⟩ := exists_spelled hv
      obtain ⟨hlt, -⟩ := semverParse_spelled_iff.1 hv
      exact ⟨l, (spelled_eq_text fun hdot => h ⟨l, pre, build, hlt, rfl, hdot⟩).symm, hlt⟩
    · rintro ⟨l, rfl, hlt⟩
      rw [semverParse_text_iff.2 ⟨hlt, rfl⟩]
      rfl
    · rintro v l hv rfl
      rw [← (semverParse_text_iff.1 hv).2]
      simp [semverOf, trail]

/-- The word `1.0.0-a`. -/
def sampleLiteral : Literal where
  major := str "1"
  minor := str "0"
  patch := str "0"
  prerelease := some [str "a"]
  build := none
  numeric := ⟨⟨by decide, by unfold Digits; decide +kernel, trivial⟩,
    ⟨by decide, by unfold Digits; decide +kernel, trivial⟩,
    ⟨by decide, by unfold Digits; decide +kernel, trivial⟩⟩
  prerelease_valid := by
    intro ids hids
    obtain rfl := Option.some.inj hids
    refine ⟨List.cons_ne_nil _ _, fun id hid => ?_⟩
    obtain rfl := List.mem_singleton.1 hid
    exact ⟨⟨by decide, by unfold IdentifierChar; decide +kernel⟩, fun _ => trivial⟩
  build_valid := fun _ h => absurd h (by simp)

lemma sampleLiteral_below : sampleLiteral.Below (2 ^ 64) := by
  unfold Literal.Below
  decide

/-- After the identifier stands an empty one. -/
theorem semverParse_trailing_dot : ¬ReadsGrammar (str "1.0.0-a.") := by
  intro h
  obtain ⟨l, hl, -⟩ := h.accepts.1 (by decide)
  exact text_ne_of_trailingDot ⟨sampleLiteral, true, false, sampleLiteral_below, by decide,
    .inl ⟨rfl, rfl⟩⟩ l hl

/-! ### The order of the words -/

/-- The identifiers of a section are the ones that are compared. -/
lemma identifiers_dotted : ∀ {ids : List Bytes} {fuel : ℕ}, (∀ id ∈ ids, BuildIdentifier id) →
    (dotted ids).length ≤ fuel → identifiers fuel (dotted ids) = ids
  | [], 0, _, _ => rfl
  | [], _ + 1, _, _ => rfl
  | id :: ids, fuel, hids, hfuel => by
    have hid := hids id List.mem_cons_self
    have hdot : ch '.' ∉ id := fun h => (IdentifierChar.ne (hid.2 _ h)).1 rfl
    have hcut := firstIdentifier_append hdot
    have hs : dotted (id :: ids) ≠ [] := by simp [dotted_cons, hid.1]
    obtain ⟨fuel, rfl⟩ : ∃ n, fuel = n + 1 :=
      ⟨fuel - 1, by have := List.length_pos_of_ne_nil hs; omega⟩
    rw [identifiers, if_neg hs]
    by_cases hnil : ids = []
    · subst hnil
      rw [dotted_cons, if_pos rfl, List.append_nil, (hcut []).2]
      cases fuel <;> rfl
    · rw [dotted_cons, if_neg hnil, List.length_append, List.length_cons] at hfuel
      rw [dotted_cons, if_neg hnil, (hcut _).1, identifiers_dotted
        (fun x hx => hids x (List.mem_cons_of_mem id hx)) (by omega)]

lemma versionOf_text {l : Literal} (h : l.Below (2 ^ 64)) : versionOf l.text = some l.version := by
  have hpre : (semverOf l false).version = l.version := by
    have hids : ∀ ids ∈ l.prerelease, (identifiers (dotted ids).length (dotted ids)).map identifierOf =
        ids.map Identifier.read := by
      intro ids hids
      rw [identifiers_dotted (fun id hid => ((l.prerelease_valid ids hids).2 id hid).1) le_rfl]
      rfl
    unfold Semver.version Literal.version semverOf
    cases hp : l.prerelease with
    | none => rfl
    | some ids => simp [trail, hids ids hp]
  rw [versionOf, semverParse_text_iff.2 ⟨h, rfl⟩, Option.map_some, hpre]

/-- **`semver_compare` is the standard's order** on the words of the grammar whose numbers fit: it
always answers, with the precedence of what the words say, it is antisymmetric and transitive, and
the build metadata do not matter. -/
theorem semverCompare_standard {a b c : Literal} (ha : a.Below (2 ^ 64)) (hb : b.Below (2 ^ 64))
    (hc : c.Below (2 ^ 64)) :
    semverCompare a.text b.text = some (precedence a.version b.version) ∧
      semverCompare b.text a.text = (semverCompare a.text b.text).map Ordering.swap ∧
      (semverCompare a.text b.text = some .eq ↔ a.version = b.version) ∧
      ((semverCompare a.text b.text ≠ some .gt ∧ semverCompare b.text c.text ≠ some .gt) →
        semverCompare a.text c.text ≠ some .gt) ∧
      ∀ a' : Literal, a'.major = a.major → a'.minor = a.minor → a'.patch = a.patch →
        a'.prerelease = a.prerelease → semverCompare a'.text b.text = semverCompare a.text b.text := by
  have hcmp : ∀ {x y : Literal}, x.Below (2 ^ 64) → y.Below (2 ^ 64) →
      semverCompare x.text y.text = some (precedence x.version y.version) := by
    intro x y hx hy
    rw [semverCompare_eq, versionOf_text hx, versionOf_text hy]
    rfl
  rw [hcmp ha hb, hcmp hb ha, hcmp hb hc, hcmp ha hc]
  refine ⟨rfl, ?_, ?_, ?_, ?_⟩
  · rw [Option.map_some, @Std.OrientedCmp.eq_swap _ precedence]
  · rw [Option.some.injEq, Std.LawfulEqCmp.compare_eq_iff_eq]
  · rintro ⟨hab, hbc⟩ hac
    have hle : ∀ {x y : Version}, some (precedence x y) ≠ some .gt → (precedence x y).isLE := by
      intro x y h
      exact Ordering.isLE_iff_ne_gt.2 fun he => h (congrArg some he)
    have hle := Std.TransCmp.isLE_trans (hle hab) (hle hbc)
    exact Ordering.isLE_iff_ne_gt.1 hle (Option.some.inj hac)
  · intro a' h1 h2 h3 h4
    have hversion : a'.version = a.version := by
      simp only [Literal.version, h1, h2, h3, h4]
    have ha' : a'.Below (2 ^ 64) := by
      unfold Literal.Below
      rw [h1, h2, h3]
      exact ha
    rw [hcmp ha' hb, hversion]

/-- The word `1.0.0+b`. -/
def buildLiteral : Literal :=
  { sampleLiteral with
    prerelease := none
    build := some [str "b"]
    prerelease_valid := fun _ h => absurd h (by simp)
    build_valid := by
      intro ids hids
      obtain rfl := Option.some.inj hids
      refine ⟨List.cons_ne_nil _ _, fun id hid => ?_⟩
      obtain rfl := List.mem_singleton.1 hid
      exact ⟨by decide, by unfold IdentifierChar; decide +kernel⟩ }

/-- The word `1.0.1`. -/
def patchLiteral : Literal :=
  { sampleLiteral with
    patch := str "1"
    prerelease := none
    numeric := ⟨sampleLiteral.numeric.1, sampleLiteral.numeric.2.1,
      ⟨by decide, by unfold Digits; decide +kernel, trivial⟩⟩
    prerelease_valid := fun _ h => absurd h (by simp) }

/-- A prerelease, its release with a build, and the release after it. -/
theorem semverCompare_standard_sample :
    semverCompare sampleLiteral.text patchLiteral.text ≠ some .gt := by
  have hbuild : buildLiteral.Below (2 ^ 64) := by
    unfold Literal.Below
    decide
  have hpatch : patchLiteral.Below (2 ^ 64) := by
    unfold Literal.Below
    decide
  exact (semverCompare_standard sampleLiteral_below hbuild hpatch).2.2.2.1 ⟨by decide, by decide⟩

end Wpm.Repository
