import Wpm.Lib.Decimal
import Mathlib.Tactic.Common

/-!
The precedence of semantic versions, and how they are written.

A version has three numbers and, unless it is a release, a list of prerelease identifiers. The order
is the standard's: by the numbers, a release after its prereleases, and prereleases by their
identifiers from the left, where a number comes before a word and a list before its extensions.

A `Literal` is a word of the standard's grammar, cut into its parts. The build metadata at its end
are no part of the version.
-/

namespace Wpm.Lib.SemVer

open Wpm.Lib.CString Wpm.Lib.Decimal

/-- A prerelease identifier. -/
inductive Identifier
  | numeric (n : ℕ)
  | alphanumeric (s : Bytes)
  deriving DecidableEq

/-- **The order of identifiers.** -/
def Identifier.compare : Identifier → Identifier → Ordering
  | .numeric m, .numeric n => Ord.compare m n
  | .numeric _, .alphanumeric _ => .lt
  | .alphanumeric _, .numeric _ => .gt
  | .alphanumeric s, .alphanumeric t => Ord.compare s t

instance : Std.OrientedCmp Identifier.compare where
  eq_swap {a b} := by
    cases a <;> cases b
    · exact Std.OrientedOrd.eq_swap
    · rfl
    · rfl
    · exact Std.OrientedOrd.eq_swap

instance : Std.TransCmp Identifier.compare where
  isLE_trans {a b c} hab hbc := by
    cases a <;> cases b <;> cases c <;> simp only [Identifier.compare] at *
    all_goals first | exact Std.TransOrd.isLE_trans hab hbc | contradiction | rfl

/-- What precedence looks at: build metadata is left out. -/
structure Version where
  major : ℕ
  minor : ℕ
  patch : ℕ
  prerelease : Option (List Identifier)

/-- A release comes after its prereleases. -/
def comparePrerelease : Option (List Identifier) → Option (List Identifier) → Ordering
  | none, none => .eq
  | none, some _ => .gt
  | some _, none => .lt
  | some a, some b => List.compareLex Identifier.compare a b

instance : Std.OrientedCmp comparePrerelease where
  eq_swap {a b} := by
    cases a <;> cases b
    · rfl
    · rfl
    · rfl
    · exact @Std.OrientedCmp.eq_swap _ (List.compareLex Identifier.compare) _ _ _

instance : Std.TransCmp comparePrerelease where
  isLE_trans {a b c} hab hbc := by
    cases a <;> cases b <;> cases c <;> simp only [comparePrerelease] at *
    all_goals first
      | exact @Std.TransCmp.isLE_trans _ (List.compareLex Identifier.compare) _ _ _ _ hab hbc
      | contradiction
      | rfl

/-- **Precedence.** -/
def precedence (a b : Version) : Ordering :=
  compareLex (compareOn Version.major) (compareLex (compareOn Version.minor)
    (compareLex (compareOn Version.patch)
      fun a b => comparePrerelease a.prerelease b.prerelease)) a b

instance : Std.OrientedCmp fun a b : Version => comparePrerelease a.prerelease b.prerelease where
  eq_swap {a b} := @Std.OrientedCmp.eq_swap _ comparePrerelease _ a.prerelease b.prerelease

instance : Std.TransCmp fun a b : Version => comparePrerelease a.prerelease b.prerelease where
  isLE_trans {a b c} hab hbc :=
    @Std.TransCmp.isLE_trans _ comparePrerelease _ a.prerelease b.prerelease c.prerelease hab hbc

instance : Std.TransCmp precedence :=
  inferInstanceAs (Std.TransCmp (compareLex _ (compareLex _ (compareLex _ _))))

instance : Std.LawfulEqCmp Identifier.compare where
  eq_of_compare {a b} h := by
    cases a <;> cases b <;> simp only [Identifier.compare, reduceCtorEq] at h
    · exact congrArg _ (Std.LawfulEqCmp.eq_of_compare h)
    · exact congrArg _ (Std.LawfulEqCmp.eq_of_compare h)

instance : Std.LawfulEqCmp comparePrerelease where
  eq_of_compare {a b} h := by
    cases a <;> cases b <;> simp only [comparePrerelease, reduceCtorEq] at h
    · rfl
    · exact congrArg _ (Std.LawfulEqCmp.eq_of_compare h)

/-- Versions of the same precedence are the same. -/
instance : Std.LawfulEqCmp precedence where
  eq_of_compare {a b} h := by
    simp only [precedence, compareLex, compareOn, Ordering.then_eq_eq] at h
    obtain ⟨h1, h2, h3, h4⟩ := h
    cases a
    cases b
    rw [Version.mk.injEq]
    exact ⟨Std.LawfulEqCmp.eq_of_compare h1, Std.LawfulEqCmp.eq_of_compare h2,
      Std.LawfulEqCmp.eq_of_compare h3, Std.LawfulEqCmp.eq_of_compare h4⟩

/-! ### The grammar -/

/-- A numeric identifier: no leading zeros. -/
def Numeric (s : Bytes) : Prop := s ≠ [] ∧ Digits s ∧ NoLeadingZero s

/-- A character of an identifier. -/
def IdentifierChar (c : UInt8) : Prop := isAlnum c = true ∨ c = ch '-'

/-- A build identifier. -/
def BuildIdentifier (s : Bytes) : Prop := s ≠ [] ∧ ∀ c ∈ s, IdentifierChar c

/-- A prerelease identifier: one of digits only is a numeric identifier. -/
def PrereleaseIdentifier (s : Bytes) : Prop := BuildIdentifier s ∧ (Digits s → NoLeadingZero s)

/-- Identifiers, with dots between them. -/
def dotted (ids : List Bytes) : Bytes := List.intercalate [ch '.'] ids

/-- **A word of the grammar**: the digits of the three numbers, the prerelease identifiers after a
hyphen and the build identifiers after a plus sign. -/
structure Literal where
  major : Bytes
  minor : Bytes
  patch : Bytes
  prerelease : Option (List Bytes)
  build : Option (List Bytes)
  numeric : Numeric major ∧ Numeric minor ∧ Numeric patch
  prerelease_valid : ∀ ids ∈ prerelease, ids ≠ [] ∧ ∀ id ∈ ids, PrereleaseIdentifier id
  build_valid : ∀ ids ∈ build, ids ≠ [] ∧ ∀ id ∈ ids, BuildIdentifier id

namespace Literal

/-- The three numbers. -/
def core (l : Literal) : Bytes := l.major ++ ch '.' :: (l.minor ++ ch '.' :: l.patch)

/-- The sign and the identifiers of a section, if it is there. -/
def part (sign : Char) (ids : Option (List Bytes)) : Bytes :=
  match ids with
  | none => []
  | some ids => ch sign :: dotted ids

/-- The word. -/
def text (l : Literal) : Bytes := l.core ++ (part '-' l.prerelease ++ part '+' l.build)

/-- The three numbers are below `n`. -/
def Below (n : ℕ) (l : Literal) : Prop :=
  decValue l.major < n ∧ decValue l.minor < n ∧ decValue l.patch < n

end Literal

/-- What a prerelease identifier says. -/
def Identifier.read (s : Bytes) : Identifier :=
  if s.all isDigit then .numeric (decValue s) else .alphanumeric s

/-- The version that the word writes. -/
def Literal.version (l : Literal) : Version where
  major := decValue l.major
  minor := decValue l.minor
  patch := decValue l.patch
  prerelease := l.prerelease.map (List.map Identifier.read)

end Wpm.Lib.SemVer
