import Wpm.Lib.Decimal
import Wpm.Lib.SemVer

/-!
The semantic versions of `repository.c`.

`semverParse` reads a version and `semverCompare` compares two. On versions that are read the
comparison is the standard precedence of what they say (`semverCompareParsed_eq`), and so a total
preorder.
-/

namespace Wpm.Repository

open Wpm.Lib.CString Wpm.Lib.Decimal Wpm.Lib.SemVer

/-! ### Reading -/

/-- `semver`, with the prerelease as the string it points to. -/
structure Semver where
  major : ℕ
  minor : ℕ
  patch : ℕ
  prerelease : Option Bytes
  deriving DecidableEq

/-- The digit loop of `parse_number`: the number stays below `2 ^ 64`. -/
def parseDigits : ℕ → Bytes → Option (ℕ × Bytes)
  | result, [] => some (result, [])
  | result, c :: p =>
    if isDigit c then
      if (ullongMax - digitValue c) / 10 < result then none
      else parseDigits (result * 10 + digitValue c) p
    else some (result, c :: p)

/-- `parse_number`. -/
def parseNumber (p : Bytes) : Option (ℕ × Bytes) :=
  if isDigit (cur p) = false ∨ (cur p = ch '0' ∧ isDigit (cur p.tail)) then none
  else parseDigits 0 p

/-- The identifier at the start of a list that dots separate, and the list after its dot. -/
def firstIdentifier (s : Bytes) : Bytes × Bytes :=
  (s.takeWhile (· ≠ ch '.'), (s.dropWhile (· ≠ ch '.')).tail)

/-- What `valid_identifiers` demands of an identifier. -/
def validIdentifier (prerelease : Bool) (s : Bytes) : Bool :=
  s ≠ [] && (s.all fun c => isAlnum c || c = ch '-') &&
    !(prerelease && s.all isDigit && 1 < s.length && cur s = ch '0')

/-- `valid_identifiers`. -/
def validIdentifiers (prerelease : Bool) : ℕ → Bytes → Bool
  | 0, _ => true
  | fuel + 1, s =>
    s = [] || (validIdentifier prerelease (firstIdentifier s).1 &&
      validIdentifiers prerelease fuel (firstIdentifier s).2)

/-- `semver_parse`. -/
def semverParse (text : Bytes) : Option Semver := do
  let (major, p) ← parseNumber text
  guard (cur p = ch '.')
  let (minor, p) ← parseNumber p.tail
  guard (cur p = ch '.')
  let (patch, p) ← parseNumber p.tail
  let pre := if cur p = ch '-' then some (p.tail.takeWhile (· ≠ ch '+')) else none
  let p := if cur p = ch '-' then p.tail.dropWhile (· ≠ ch '+') else p
  let plus := if cur p = ch '+' then some p.tail else none
  guard (plus.isSome ∨ p = [])
  guard (pre.all fun s => s ≠ [] && validIdentifiers true s.length s)
  guard (plus.all fun s => s ≠ [] && validIdentifiers false s.length s)
  some { major, minor, patch, prerelease := pre }

/-! ### Comparing -/

/-- The loops of `identifier_compare` that skip leading zeros. -/
def skipZeros : Bytes → Bytes
  | c :: d :: s => if c = ch '0' then skipZeros (d :: s) else c :: d :: s
  | s => s

/-- `identifier_compare`. -/
def identifierCompare (a b : Bytes) : Ordering :=
  if a.all isDigit ∧ b.all isDigit then
    if (skipZeros a).length ≠ (skipZeros b).length then
      compare (skipZeros a).length (skipZeros b).length
    else compare (skipZeros a) (skipZeros b)
  else if a.all isDigit then .lt
  else if b.all isDigit then .gt
  else compare a b

/-- The loop over the identifiers in `semver_compare_parsed`, and its answer. -/
def compareIdentifiers : ℕ → Bytes → Bytes → Ordering
  | _, [], [] => .eq
  | _, [], _ :: _ => .lt
  | _, _ :: _, [] => .gt
  | 0, _ :: _, _ :: _ => .eq
  | fuel + 1, c :: a, d :: b =>
    (identifierCompare (firstIdentifier (c :: a)).1 (firstIdentifier (d :: b)).1).then
      (compareIdentifiers fuel (firstIdentifier (c :: a)).2 (firstIdentifier (d :: b)).2)

/-- `semver_compare_parsed`. -/
def semverCompareParsed (a b : Semver) : Ordering :=
  if a.major ≠ b.major then compare a.major b.major
  else if a.minor ≠ b.minor then compare a.minor b.minor
  else if a.patch ≠ b.patch then compare a.patch b.patch
  else match a.prerelease, b.prerelease with
    | none, none => .eq
    | none, some _ => .gt
    | some _, none => .lt
    | some p, some q => compareIdentifiers p.length p q

/-- `semver_compare`: none when one of the texts is not a version. -/
def semverCompare (a b : Bytes) : Option Ordering := do
  let av ← semverParse a
  let bv ← semverParse b
  some (semverCompareParsed av bv)

/-- `is_prerelease`. -/
def isPrerelease (value : Bytes) : Bool := (semverParse value).any fun v => v.prerelease.isSome

/-! ### The identifiers of a prerelease -/

/-- The identifiers, in their order. An empty one after the last dot is not read. -/
def identifiers : ℕ → Bytes → List Bytes
  | 0, _ => []
  | fuel + 1, s =>
    if s = [] then [] else (firstIdentifier s).1 :: identifiers fuel (firstIdentifier s).2

lemma length_firstIdentifier_lt {s : Bytes} (h : s ≠ []) : (firstIdentifier s).2.length < s.length := by
  rw [firstIdentifier, List.length_tail]
  have hle := List.length_dropWhile_le (fun c => decide (c ≠ ch '.')) s
  have hpos := List.length_pos_of_ne_nil h
  omega

lemma compareIdentifiers_eq : ∀ {fuel₁ fuel₂ fuel : ℕ} {a b : Bytes}, a.length ≤ fuel₁ →
    b.length ≤ fuel₂ → a.length ≤ fuel → compareIdentifiers fuel a b =
      List.compareLex identifierCompare (identifiers fuel₁ a) (identifiers fuel₂ b)
  | fuel₁, fuel₂, fuel, [], [], _, _, _ => by
    cases fuel₁ <;> cases fuel₂ <;> cases fuel <;> rfl
  | fuel₁, fuel₂ + 1, fuel, [], d :: b, _, _, _ => by
    cases fuel₁ <;> cases fuel <;> rfl
  | fuel₁ + 1, fuel₂, fuel, c :: a, [], _, _, _ => by
    cases fuel₂ <;> cases fuel <;> rfl
  | fuel₁ + 1, fuel₂ + 1, fuel + 1, c :: a, d :: b, h1, h2, h => by
    have ha := length_firstIdentifier_lt (List.cons_ne_nil c a)
    have hb := length_firstIdentifier_lt (List.cons_ne_nil d b)
    rw [compareIdentifiers, identifiers, identifiers, if_neg (List.cons_ne_nil c a),
      if_neg (List.cons_ne_nil d b), List.compareLex_cons_cons,
      @compareIdentifiers_eq fuel₁ fuel₂ _ _ _ (by omega) (by omega) (by omega)]

/-- What an identifier stands for. -/
def identifierOf (s : Bytes) : Identifier :=
  if s.all isDigit then .numeric (decValue s) else .alphanumeric s

lemma skipZeros_spec : ∀ {s : Bytes}, s ≠ [] → Digits s →
    skipZeros s ≠ [] ∧ Digits (skipZeros s) ∧ NoLeadingZero (skipZeros s) ∧
      decValue (skipZeros s) = decValue s
  | [], h, _ => absurd rfl h
  | [c], _, hd => ⟨by simp [skipZeros], hd, trivial, rfl⟩
  | c :: d :: s, _, hd => by
    unfold skipZeros
    split_ifs with hc
    · obtain ⟨h1, h2, h3, h4⟩ := @skipZeros_spec (d :: s) (by simp)
        fun x hx => hd x (List.mem_cons_of_mem c hx)
      refine ⟨h1, h2, h3, h4.trans ?_⟩
      rw [decValue_cons c, hc, show digitValue (ch '0') = 0 by decide, zero_mul, zero_add]
    · exact ⟨by simp, hd, hc, rfl⟩

/-- **`identifier_compare` is the order of the identifiers.** -/
lemma identifierCompare_eq {a b : Bytes} (ha : a ≠ []) (hb : b ≠ []) :
    identifierCompare a b = (identifierOf a).compare (identifierOf b) := by
  unfold identifierCompare identifierOf
  by_cases hda : a.all isDigit = true
  · by_cases hdb : b.all isDigit = true
    · obtain ⟨ha1, ha2, ha3, ha4⟩ := skipZeros_spec ha (List.all_eq_true.1 hda)
      obtain ⟨hb1, hb2, hb3, hb4⟩ := skipZeros_spec hb (List.all_eq_true.1 hdb)
      rw [if_pos ⟨hda, hdb⟩, if_pos hda, if_pos hdb, Identifier.compare, ← ha4, ← hb4]
      split_ifs with hlen
      · rcases lt_or_gt_of_ne hlen with h | h
        · rw [Nat.compare_eq_lt.2 h,
            Nat.compare_eq_lt.2 (decValue_lt_of_length_lt ha2 hb2 ha1 hb3 h)]
        · rw [Nat.compare_eq_gt.2 h,
            Nat.compare_eq_gt.2 (decValue_lt_of_length_lt hb2 ha2 hb1 ha3 h)]
      · exact compare_decValue ha2 hb2 (not_not.1 hlen)
    · rw [if_neg fun h => hdb h.2, if_pos hda, if_pos hda, if_neg hdb]
      rfl
  · by_cases hdb : b.all isDigit = true
    · rw [if_neg fun h => hda h.1, if_neg hda, if_pos hdb, if_neg hda, if_pos hdb]
      rfl
    · rw [if_neg fun h => hda h.1, if_neg hda, if_neg hdb, if_neg hda, if_neg hdb]
      rfl

lemma compareLex_map {α β : Type} {f : α → β} {cmp : α → α → Ordering} {cmp' : β → β → Ordering} :
    ∀ {l m : List α}, (∀ x ∈ l, ∀ y ∈ m, cmp x y = cmp' (f x) (f y)) →
      List.compareLex cmp l m = List.compareLex cmp' (l.map f) (m.map f)
  | [], [], _ => rfl
  | [], _ :: _, _ => rfl
  | _ :: _, [], _ => rfl
  | x :: l, y :: m, h => by
    rw [List.map_cons, List.map_cons, List.compareLex_cons_cons, List.compareLex_cons_cons,
      h x List.mem_cons_self y List.mem_cons_self, compareLex_map fun x' hx y' hy =>
        h x' (List.mem_cons_of_mem x hx) y' (List.mem_cons_of_mem y hy)]

/-! ### The order of versions -/

/-- What the version says. -/
def Semver.version (v : Semver) : Version where
  major := v.major
  minor := v.minor
  patch := v.patch
  prerelease := v.prerelease.map fun s => (identifiers s.length s).map identifierOf

/-- No identifier is empty. -/
def Semver.WellFormed (v : Semver) : Prop :=
  ∀ s ∈ v.prerelease, ∀ id ∈ identifiers s.length s, id ≠ []

lemma ne_nil_of_validIdentifiers {prerelease : Bool} : ∀ {fuel : ℕ} {s id : Bytes},
    validIdentifiers prerelease fuel s = true → id ∈ identifiers fuel s → id ≠ []
  | 0, _, _, _, h => absurd h List.not_mem_nil
  | fuel + 1, s, id, hv, h => by
    rw [identifiers] at h
    split_ifs at h with hs
    · exact absurd h List.not_mem_nil
    · rw [validIdentifiers, Bool.or_eq_true, decide_eq_true_iff, or_iff_right hs,
        Bool.and_eq_true] at hv
      rcases List.mem_cons.1 h with rfl | h
      · have hid := hv.1
        simp only [validIdentifier, Bool.and_eq_true, decide_eq_true_iff] at hid
        exact hid.1.1
      · exact ne_nil_of_validIdentifiers hv.2 h

/-- The versions that are read are well formed. -/
lemma semverParse_wellFormed {text : Bytes} {v : Semver} (h : semverParse text = some v) :
    v.WellFormed := by
  simp only [semverParse, Option.bind_eq_bind, Option.bind_eq_some_iff, Option.guard_eq_some'] at h
  obtain ⟨p1, -, -, -, p2, -, -, -, p3, -, -, -, -, hpre, -, -, hv⟩ := h
  obtain rfl := Option.some.inj hv
  intro s hs id hid
  have hs' : (if cur p3.2 = ch '-' then some (p3.2.tail.takeWhile (· ≠ ch '+')) else none) = some s :=
    hs
  rw [hs', Option.all_some, Bool.and_eq_true] at hpre
  exact ne_nil_of_validIdentifiers hpre.2 hid

/-- **`semver_compare_parsed` is the precedence** of what the versions say. -/
theorem semverCompareParsed_eq {a b : Semver} (ha : a.WellFormed) (hb : b.WellFormed) :
    semverCompareParsed a b = precedence a.version b.version := by
  have hcore : ∀ (m n : ℕ) (o : Ordering),
      (if m ≠ n then compare m n else o) = (compare m n).then o := by
    intro m n o
    rcases Nat.lt_trichotomy m n with h | h | h
    · rw [if_pos h.ne, Nat.compare_eq_lt.2 h]
      rfl
    · rw [if_neg (not_not.2 h), Nat.compare_eq_eq.2 h]
      rfl
    · rw [if_pos h.ne', Nat.compare_eq_gt.2 h]
      rfl
  rw [semverCompareParsed, hcore, hcore, hcore]
  refine congrArg (fun o => (compare a.major b.major).then ((compare a.minor b.minor).then
    ((compare a.patch b.patch).then o))) ?_
  rcases a with ⟨_, _, _, _ | p⟩ <;> rcases b with ⟨_, _, _, _ | q⟩
  · rfl
  · rfl
  · rfl
  · change compareIdentifiers p.length p q = List.compareLex Identifier.compare
      ((identifiers p.length p).map identifierOf) ((identifiers q.length q).map identifierOf)
    rw [compareIdentifiers_eq le_rfl le_rfl le_rfl]
    exact compareLex_map fun x hx y hy => identifierCompare_eq (ha p rfl x hx) (hb q rfl y hy)

/-- The version that a text writes. -/
def versionOf (text : Bytes) : Option Version := (semverParse text).map Semver.version

lemma semverCompare_eq (a b : Bytes) : semverCompare a b = (versionOf a).bind fun av =>
    (versionOf b).map fun bv => precedence av bv := by
  unfold semverCompare versionOf
  cases ha : semverParse a with
  | none => rfl
  | some av =>
    cases hb : semverParse b with
    | none => rfl
    | some bv =>
      exact congrArg some
        (semverCompareParsed_eq (semverParse_wellFormed ha) (semverParse_wellFormed hb))

example : semverCompare (str "1.0.0-rc.10+b1") (str "1.0.0-rc.9") = some .gt := by decide

end Wpm.Repository
