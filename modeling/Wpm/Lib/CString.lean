import Mathlib.Data.List.DropRight
import Mathlib.Data.List.Infix
import Mathlib.Order.Basic

/-!
The C string library, on lists of bytes.

A C string is the list of its bytes before the terminator, and a pointer into it is the list of
the bytes from there on: `cur` reads the byte under the pointer, which is the terminator at the
end. The functions are those of `string.h`, `ctype.h` and `stdlib.h`, in the C locale, where the
letters are the ASCII ones.
-/

namespace Wpm.Lib.CString

abbrev Bytes := List UInt8

instance : LawfulBEq Bytes := inferInstance

/-- The byte of a character. -/
def ch (c : Char) : UInt8 := UInt8.ofNat c.toNat

/-- A string literal. -/
def str (s : String) : Bytes := s.toByteArray.data.toList

lemma str_inj {a b : String} : str a = str b ↔ a = b := by
  refine ⟨fun h => ?_, congrArg str⟩
  have hdata : a.toByteArray.data = b.toByteArray.data := Array.toList_inj.1 h
  exact String.toByteArray_inj.1 (ByteArray.ext hdata)

/-- The byte under a pointer. -/
def cur (p : Bytes) : UInt8 := p.headD 0

/-- What a C string function sees of a buffer: the bytes before the terminator. -/
def cstr (s : Bytes) : Bytes := s.takeWhile (· ≠ 0)

/-- A property of every member of a list is computed. -/
lemma forall_mem_of_all {α : Type*} {p : α → Prop} [DecidablePred p] {l : List α}
    (h : l.all (fun a => decide (p a)) = true) : ∀ a ∈ l, p a := fun a ha =>
  of_decide_eq_true (List.all_eq_true.1 h a ha)

@[simp] lemma cur_nil : cur [] = 0 := rfl

@[simp] lemma cur_cons (c : UInt8) (p : Bytes) : cur (c :: p) = c := rfl

lemma cstr_eq_self {s : Bytes} (h : (0 : UInt8) ∉ s) : cstr s = s :=
  List.takeWhile_eq_self_iff.2 fun c hc => by
    simp only [ne_eq, decide_not, Bool.not_eq_true', decide_eq_false_iff_not]
    rintro rfl
    exact h hc

lemma cstr_append_of_mem {s : Bytes} (h : (0 : UInt8) ∈ s) (t : Bytes) : cstr (s ++ t) = cstr s := by
  rw [cstr, cstr, List.takeWhile_append, if_neg]
  intro hlen
  have := List.takeWhile_eq_self_iff.1 (List.IsPrefix.eq_of_length
    (List.takeWhile_prefix (l := s) fun x => decide (x ≠ 0)) hlen) 0 h
  simp at this

lemma zero_notMem_cstr (s : Bytes) : (0 : UInt8) ∉ cstr s := fun h => by
  simpa using List.mem_takeWhile_imp h

/-! ### Letter case -/

/-- `tolower`. -/
def lower (c : UInt8) : UInt8 := if ch 'A' ≤ c ∧ c ≤ ch 'Z' then c + 32 else c

/-- The string in lower case. -/
def fold (s : Bytes) : Bytes := s.map lower

/-- `_stricmp`: the comparison of the two strings in lower case. -/
def stricmp (a b : Bytes) : Ordering := compare (fold a) (fold b)

lemma lower_lower (c : UInt8) : lower (lower c) = lower c := by
  simp only [lower, ch]
  grind

@[simp] lemma fold_fold (s : Bytes) : fold (fold s) = fold s := by
  simp [fold, Function.comp_def, lower_lower]

lemma fold_append (a b : Bytes) : fold (a ++ b) = fold a ++ fold b := List.map_append

lemma fold_cons (c : UInt8) (s : Bytes) : fold (c :: s) = lower c :: fold s := rfl

lemma length_fold (s : Bytes) : (fold s).length = s.length := List.length_map ..

@[simp] lemma stricmp_eq_iff {a b : Bytes} : stricmp a b = .eq ↔ fold a = fold b :=
  Std.LawfulEqOrd.compare_eq_iff_eq

instance : Std.OrientedCmp stricmp := ⟨fun {_ _} => Std.OrientedOrd.eq_swap⟩

instance : Std.TransCmp stricmp := ⟨fun {_ _ _} h1 h2 => Std.TransOrd.isLE_trans h1 h2⟩

/-! ### Searching -/

/-- `strchr`, and a terminator put over the character found: the string before the first `c` and
the one after it. -/
def cutAt (c : UInt8) : Bytes → Option (Bytes × Bytes)
  | [] => none
  | b :: s => if b = c then some ([], s) else (cutAt c s).map fun p => (b :: p.1, p.2)

lemma cutAt_eq_some {c : UInt8} : ∀ {s a b : Bytes},
    cutAt c s = some (a, b) ↔ s = a ++ c :: b ∧ c ∉ a
  | [], a, b => by simp [cutAt]
  | x :: s, a, b => by
    unfold cutAt
    by_cases hx : x = c
    · subst hx
      cases a with
      | nil => simp
      | cons y a => simp; tauto
    · rw [if_neg hx]
      cases a with
      | nil => simp [hx]
      | cons y a =>
        have ih := @cutAt_eq_some c s a b
        simp only [Option.map_eq_some_iff, Prod.exists, Prod.mk.injEq, List.cons.injEq,
          List.cons_append, List.mem_cons, not_or]
        constructor
        · rintro ⟨a', b', h, ⟨rfl, rfl⟩, rfl⟩
          exact ⟨⟨rfl, (ih.1 h).1⟩, Ne.symm hx, (ih.1 h).2⟩
        · rintro ⟨⟨rfl, h⟩, -, ha⟩
          exact ⟨a, b, ih.2 ⟨h, ha⟩, ⟨rfl, rfl⟩, rfl⟩

lemma cutAt_eq_none {c : UInt8} : ∀ {s : Bytes}, cutAt c s = none ↔ c ∉ s
  | [] => by simp [cutAt]
  | x :: s => by
    unfold cutAt
    by_cases hx : x = c
    · simp [hx]
    · simp [hx, Ne.symm hx, @cutAt_eq_none c s]

lemma lower_eq_comma {c : UInt8} : lower c = ch ',' ↔ c = ch ',' := by
  simp only [lower, ch]
  grind

/-- A comma is found at the same place in the folded string. -/
lemma cutAt_fold : ∀ {s : Bytes},
    cutAt (ch ',') (fold s) = (cutAt (ch ',') s).map fun p => (fold p.1, fold p.2)
  | [] => rfl
  | x :: s => by
    rw [fold_cons, cutAt, cutAt]
    by_cases hx : x = ch ','
    · rw [if_pos (lower_eq_comma.2 hx), if_pos hx]
      rfl
    · rw [if_neg (mt lower_eq_comma.1 hx), if_neg hx, cutAt_fold, Option.map_map, Option.map_map]
      rfl

/-- `strstr`: the string from the first occurrence of `needle` on. -/
def strstr (needle : Bytes) : Bytes → Option Bytes
  | [] => if needle = [] then some [] else none
  | c :: s => if needle.isPrefixOf (c :: s) then some (c :: s) else strstr needle s

/-- What is dropped from the end stops at a character that stays. -/
lemma rdropWhile_append {p : UInt8 → Bool} {a : Bytes} (h : ∀ hne : a ≠ [], p (a.getLast hne) = false)
    (b : Bytes) : (a ++ b).rdropWhile p = a ++ b.rdropWhile p := by
  induction b using List.reverseRecOn with
  | nil =>
    rw [List.append_nil, List.rdropWhile_nil, List.append_nil, List.rdropWhile_eq_self_iff]
    intro hne
    rw [h hne]
    exact Bool.false_ne_true
  | append_singleton b c ih =>
    rw [← List.append_assoc]
    by_cases hc : p c = true
    · rw [List.rdropWhile_concat_pos _ _ _ hc, List.rdropWhile_concat_pos _ _ _ hc, ih]
    · rw [List.rdropWhile_concat_neg _ _ _ hc, List.rdropWhile_concat_neg _ _ _ hc,
        List.append_assoc]

/-- `strcspn` and `strspn`, as the bytes that they count. -/
def spanNot (stop : Bytes) (s : Bytes) : Bytes := s.takeWhile (· ∉ stop)

lemma spanNot_cons {stop : Bytes} {c : UInt8} (h : c ∉ stop) (s : Bytes) :
    spanNot stop (c :: s) = c :: spanNot stop s := by
  have hc : decide (c ∉ stop) = true := decide_eq_true h
  rw [spanNot, spanNot, @List.takeWhile_cons_of_pos _ (fun c => decide (c ∉ stop)) _ _ hc]

lemma spanNot_cons_of_mem {stop : Bytes} {c : UInt8} (h : c ∈ stop) (s : Bytes) :
    spanNot stop (c :: s) = [] := by
  have hc : ¬ decide (c ∉ stop) = true := by simpa using h
  rw [spanNot, @List.takeWhile_cons_of_neg _ (fun c => decide (c ∉ stop)) _ _ hc]

/-- More characters to stop at make no difference where there are none of them. -/
lemma spanNot_eq_of_subset {stop stop' : Bytes} (hsub : stop ⊆ stop') : ∀ {s : Bytes},
    (∀ c ∈ spanNot stop s, c ∉ stop') → spanNot stop' s = spanNot stop s
  | [], _ => rfl
  | c :: s, h => by
    by_cases hc : c ∈ stop
    · rw [spanNot_cons_of_mem hc, spanNot_cons_of_mem (hsub hc)]
    · rw [spanNot_cons hc] at h ⊢
      rw [spanNot_cons (h c List.mem_cons_self),
        spanNot_eq_of_subset hsub fun d hd => h d (List.mem_cons_of_mem c hd)]

def spanOf (accept : Bytes) (s : Bytes) : Bytes := s.takeWhile (· ∈ accept)

/-! ### Numbers -/

def isDigit (c : UInt8) : Bool := ch '0' ≤ c ∧ c ≤ ch '9'

/-- `isspace`. -/
def isSpace (c : UInt8) : Bool := c = ch ' ' ∨ (9 ≤ c ∧ c ≤ 13)

/-- `isalpha`. -/
def isAlpha (c : UInt8) : Bool := (ch 'A' ≤ c ∧ c ≤ ch 'Z') || (ch 'a' ≤ c ∧ c ≤ ch 'z')

/-- `isalnum`. -/
def isAlnum (c : UInt8) : Bool :=
  isDigit c || (ch 'A' ≤ c ∧ c ≤ ch 'Z') || (ch 'a' ≤ c ∧ c ≤ ch 'z')

lemma isAlpha_lower (c : UInt8) : isAlpha (lower c) = isAlpha c := by
  simp only [isAlpha, lower, ch]
  grind

lemma eq_of_lower_eq {c d : UInt8} (hd : isAlpha d = false) (h : lower c = lower d) : c = d := by
  simp only [isAlpha, lower, ch] at hd h
  grind

/-- A string without letters is told from any other one. -/
lemma eq_of_fold_eq : ∀ {a b : Bytes}, (∀ c ∈ b, isAlpha c = false) → fold a = fold b → a = b
  | [], [], _, _ => rfl
  | [], d :: b, _, h => absurd (congrArg List.length h) (by simp [fold])
  | c :: a, [], _, h => absurd (congrArg List.length h) (by simp [fold])
  | c :: a, d :: b, hb, h => by
    rw [fold_cons, fold_cons, List.cons.injEq] at h
    rw [eq_of_lower_eq (hb d List.mem_cons_self) h.1,
      eq_of_fold_eq (fun x hx => hb x (List.mem_cons_of_mem _ hx)) h.2]

/-- The number that a run of decimal digits writes. -/
def decValue (s : Bytes) : ℕ := s.foldl (fun n c => 10 * n + (c - ch '0').toNat) 0

/-- `ULLONG_MAX`. -/
def ullongMax : ℕ := 0xffffffffffffffff

/-- `strtoull` in base ten: the number at the start of the string, and the string after it. A
number that does not fit gives the largest one, and a minus sign negates in 64 bits. Without a
digit nothing is read. -/
def strtoull (s : Bytes) : ℕ × Bytes :=
  let p := s.dropWhile isSpace
  let negative := cur p = ch '-'
  let p := if cur p = ch '-' ∨ cur p = ch '+' then p.tail else p
  let digits := p.takeWhile isDigit
  if digits = [] then (0, s)
  else if ullongMax < decValue digits then (ullongMax, p.dropWhile isDigit)
  else if negative then ((ullongMax + 1 - decValue digits) % (ullongMax + 1), p.dropWhile isDigit)
  else (decValue digits, p.dropWhile isDigit)

/-- `LONG_MAX`, where a `long` has 32 bits. -/
def longMax : ℤ := 0x7fffffff

/-- `strtol` in base ten: the number at the start of the string, kept within a `long`, and the
string after it. Without a digit nothing is read. -/
def strtol (s : Bytes) : ℤ × Bytes :=
  let p := s.dropWhile isSpace
  let sign : ℤ := if cur p = ch '-' then -1 else 1
  let p := if cur p = ch '-' ∨ cur p = ch '+' then p.tail else p
  let digits := p.takeWhile isDigit
  if digits = [] then (0, s)
  else (max (-longMax - 1) (min longMax (sign * decValue digits)), p.dropWhile isDigit)

/-- `sscanf` with `%llu%c`, when it converts one item only: the number takes the whole string. -/
def scanU64 (s : Bytes) : Option ℕ :=
  let p := s.dropWhile isSpace
  let p := if cur p = ch '-' ∨ cur p = ch '+' then p.tail else p
  if p.takeWhile isDigit ≠ [] ∧ p.dropWhile isDigit = [] then some (strtoull s).1 else none

lemma isSpace_eq_false_of_isDigit {c : UInt8} (h : isDigit c = true) : isSpace c = false := by
  simp only [isDigit, isSpace, ch] at h ⊢
  grind

lemma ne_sign_of_isDigit {c : UInt8} (h : isDigit c = true) : c ≠ ch '-' ∧ c ≠ ch '+' := by
  simp only [isDigit, ch] at h ⊢
  grind

/-- A string that starts with a digit starts with the number. -/
lemma strtoull_of_isDigit {s : Bytes} (h : isDigit (cur s) = true) :
    strtoull s = (min (decValue (s.takeWhile isDigit)) ullongMax, s.dropWhile isDigit) := by
  cases s with
  | nil => exact absurd h (by decide)
  | cons c p =>
    rw [cur_cons] at h
    have hsign := ne_sign_of_isDigit h
    have htake : (c :: p).takeWhile isDigit ≠ [] := by simp [h]
    simp only [strtoull, List.dropWhile_cons_of_neg (Bool.eq_false_iff.1
      (isSpace_eq_false_of_isDigit h)), cur_cons, hsign, or_self, if_false, if_neg htake]
    split_ifs with hmax
    · rw [Nat.min_eq_right hmax.le]
    · rw [Nat.min_eq_left (not_lt.1 hmax)]

lemma lower_eq_self_of_isDigit {c : UInt8} (h : isDigit c = true) : lower c = c := by
  simp only [isDigit, lower, ch] at h ⊢
  grind

lemma exists_isDigit_of_scanU64 {s : Bytes} {n : ℕ} (h : scanU64 s = some n) :
    ∃ c ∈ s, isDigit c = true := by
  simp only [scanU64, Option.ite_none_right_eq_some] at h
  obtain ⟨⟨htake, -⟩, -⟩ := h
  obtain ⟨c, hc⟩ := List.exists_mem_of_ne_nil _ htake
  have hsub : ∀ p : Bytes, c ∈ (if cur p = ch '-' ∨ cur p = ch '+' then p.tail else p) → c ∈ p := by
    intro p hp
    split_ifs at hp
    · exact List.mem_of_mem_tail hp
    · exact hp
  exact ⟨c, (List.dropWhile_sublist _).subset (hsub _ ((List.takeWhile_sublist _).subset hc)),
    List.mem_takeWhile_imp hc⟩

/-! ### Hexadecimal digits -/

def hexDigit (n : UInt8) : UInt8 := if n < 10 then ch '0' + n else ch 'a' + (n - 10)

/-- `sodium_bin2hex`. -/
def bin2hex (s : Bytes) : Bytes := s.flatMap fun b => [hexDigit (b / 16), hexDigit (b % 16)]

lemma length_bin2hex (s : Bytes) : (bin2hex s).length = 2 * s.length := by
  induction s with
  | nil => rfl
  | cons b s ih => simp only [bin2hex, List.flatMap_cons, List.length_append] at ih ⊢; simp; omega

end Wpm.Lib.CString
