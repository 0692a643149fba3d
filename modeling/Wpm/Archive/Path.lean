import Wpm.Lib.CString

/-!
The names inside a package, and the rows of its index.

An index is a text of lines `filename,size,hash,algorithm`. A row is split at its first three
commas and its fields are trimmed (`splitRow`), in the read-only path and in the staged path alike.
-/

namespace Wpm.Archive

open Wpm.Lib.CString

/-- `WPM_PATH_SIZE`. -/
def pathSize : ℕ := 4096

/-- `WPM_BLAKE2B_HEX_SIZE`, with the terminator. -/
def blake2bHexSize : ℕ := 65

/-! ### Names -/

def isSeparator (c : UInt8) : Bool := c = ch '/' ∨ c = ch '\\'

/-- One character of `normalize_archive_separators`. -/
def toSlash (c : UInt8) : UInt8 := if c = ch '\\' then ch '/' else c

/-- `normalize_archive_separators`. -/
def normalizeArchiveSeparators (path : Bytes) : Bytes := path.map toSlash

/-- The loop of `is_safe_archive_path`, with the segment read so far: no segment is `..`. -/
def safeSegments : Bytes → Bytes → Bool
  | segment, [] => segment ≠ str ".."
  | segment, c :: path =>
    if isSeparator c then segment ≠ str ".." && safeSegments [] path
    else safeSegments (segment ++ [c]) path

/-- `is_safe_archive_path`. -/
def isSafeArchivePath (path : Bytes) : Bool :=
  path ≠ [] && !isSeparator (cur path) && ch ':' ∉ path && safeSegments [] path

/-- `join_path`, into a buffer of `WPM_PATH_SIZE` bytes. -/
def joinPath (left right : Bytes) : Option Bytes :=
  let separator := if left ≠ [] ∧ isSeparator (left.getLastD 0) then [] else [ch '\\']
  let path := left ++ separator ++ right
  if path.length < pathSize then some path else none

/-- Whether a path can be joined depends on its length only. -/
lemma joinPath_isSome_of_length_le {left right right' : Bytes} (h : (joinPath left right).isSome)
    (hle : right'.length ≤ right.length) : (joinPath left right').isSome := by
  simp only [joinPath, Option.isSome_ite, List.length_append] at h ⊢
  omega

/-- Two names that agree up to letter case and up to the direction of slashes are the same. -/
lemma eq_of_fold_eq_of_normalize_eq : ∀ {a b : Bytes}, fold a = fold b →
    normalizeArchiveSeparators a = normalizeArchiveSeparators b → a = b
  | [], b, h, _ => by
    simpa [fold, eq_comm] using h
  | x :: a, [], h, _ => by simp [fold] at h
  | x :: a, y :: b, h1, h2 => by
    simp only [fold, normalizeArchiveSeparators, List.map_cons, List.cons.injEq] at h1 h2
    have hxy : x = y := by
      have hl := h1.1
      have hs := h2.1
      simp only [lower, toSlash, ch] at hl hs
      grind
    rw [hxy, eq_of_fold_eq_of_normalize_eq h1.2 h2.2]

lemma length_normalize (path : Bytes) : (normalizeArchiveSeparators path).length = path.length :=
  List.length_map ..

/-! ### Rows -/

def isTrailingBlank (c : UInt8) : Bool := c = 10 ∨ c = 13 ∨ c = ch ' ' ∨ c = 9

def isBlank (c : UInt8) : Bool := c = ch ' ' ∨ c = 9

/-- `trim_line`. -/
def trimLine (line : Bytes) : Bytes := (line.rdropWhile isTrailingBlank).dropWhile isBlank

lemma mem_of_mem_trimLine {line : Bytes} {c : UInt8} (h : c ∈ trimLine line) : c ∈ line :=
  (List.rdropWhile_prefix _ _).subset ((List.dropWhile_sublist _).subset h)

/-- A blank at the end of a line is trimmed, such as the line feed that `fgets` leaves there. -/
lemma trimLine_concat {c : UInt8} (hc : isTrailingBlank c = true) (line : Bytes) :
    trimLine (line ++ [c]) = trimLine line := by
  rw [trimLine, List.rdropWhile_concat_pos _ _ _ hc, trimLine]

/-- So it is in the string that the C functions see of the buffer. -/
lemma trimLine_cstr_concat {c : UInt8} (hc : isTrailingBlank c = true) (line : Bytes) :
    trimLine (cstr (line ++ [c])) = trimLine (cstr line) := by
  by_cases h : (0 : UInt8) ∈ line
  · rw [cstr_append_of_mem h]
  · have hne : (0 : UInt8) ≠ c := by
      rintro rfl
      exact absurd hc (by decide)
    rw [cstr_eq_self h, cstr_eq_self (by simpa [h] using hne), trimLine_concat hc]

def indexHeader : Bytes := str "filename,size,hash,algorithm"

/-- The fields of a row of the index. -/
structure IndexRow where
  filename : Bytes
  sizeText : Bytes
  expectedHash : Bytes
  algorithm : Bytes
  deriving DecidableEq

/-- The row on a line: cut at the first three commas, and each field trimmed. -/
def splitRow (line : Bytes) : Option IndexRow := do
  let (filename, rest) ← cutAt (ch ',') line
  let (sizeText, rest) ← cutAt (ch ',') rest
  let (expectedHash, algorithm) ← cutAt (ch ',') rest
  some ⟨trimLine filename, trimLine sizeText, trimLine expectedHash, trimLine algorithm⟩

/-- A size text that is decimal digits only. -/
def IsSize (text : Bytes) (size : ℕ) : Prop :=
  text ≠ [] ∧ (∀ c ∈ text, isDigit c = true) ∧ decValue text = size

/-- A number that starts with a digit and is read to the end of the text is made of digits. -/
lemma isSize_of_strtoull {text : Bytes} {size : ℕ} (h0 : isDigit (cur text) = true)
    (h : strtoull text = (size, [])) (hsize : size < ullongMax) : IsSize text size := by
  rw [strtoull_of_isDigit h0, Prod.mk.injEq, List.dropWhile_eq_nil_iff] at h
  obtain ⟨hvalue, hall⟩ := h
  rw [List.takeWhile_eq_self_iff.2 hall] at hvalue
  refine ⟨?_, hall, by omega⟩
  rintro rfl
  exact absurd h0 (by decide)

end Wpm.Archive
