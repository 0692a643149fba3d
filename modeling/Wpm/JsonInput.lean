import Wpm.Lib.CString

/-!
The lexical helpers of `json_input.c`.

A `const char *` into the document is the list of the bytes from there on, so that moving it is
taking tails; the byte under it is `cur`, and the functions that move their caller's pointer return
the new one. A failed read leaves the caller's pointer where it was. A destination buffer is its
size, and `output = false` is a read with no destination.
-/

namespace Wpm.JsonInput

open Wpm.Lib.CString

/-- `(size_t)-1`. -/
def sizeMax : ℕ := 0xffffffffffffffff

/-! ### Strings -/

/-- The white space of JSON. -/
def isJsonSpace (c : UInt8) : Bool := c = ch ' ' ∨ c = 9 ∨ c = 13 ∨ c = 10

/-- `wpm_json_space`. -/
def jsonSpace (p : Bytes) : Bytes := p.dropWhile isJsonSpace

/-- The value of a hexadecimal digit. -/
def hexValue (c : UInt8) : Option ℕ :=
  if ch '0' ≤ c ∧ c ≤ ch '9' then some (c - ch '0').toNat
  else if ch 'a' ≤ c ∧ c ≤ ch 'f' then some ((c - ch 'a').toNat + 10)
  else if ch 'A' ≤ c ∧ c ≤ ch 'F' then some ((c - ch 'A').toNat + 10)
  else none

/-- The loop of `json_hex4`, with `n` digits to go. -/
def jsonHexFrom : ℕ → ℕ → Bytes → Option (ℕ × Bytes)
  | 0, result, p => some (result, p)
  | n + 1, result, p => do
    let digit ← hexValue (cur p)
    jsonHexFrom n (result * 16 + digit) p.tail

/-- `json_hex4`. -/
def jsonHex4 (p : Bytes) : Option (ℕ × Bytes) := jsonHexFrom 4 0 p

/-- The UTF-8 bytes of a code point. -/
def encodeCodepoint (codepoint : ℕ) : Bytes :=
  if codepoint < 0x80 then [UInt8.ofNat codepoint]
  else if codepoint < 0x800 then
    [UInt8.ofNat (0xc0 + codepoint / 64), UInt8.ofNat (0x80 + codepoint % 64)]
  else if codepoint < 0x10000 then
    [UInt8.ofNat (0xe0 + codepoint / 4096), UInt8.ofNat (0x80 + codepoint / 64 % 64),
      UInt8.ofNat (0x80 + codepoint % 64)]
  else
    [UInt8.ofNat (0xf0 + codepoint / 262144), UInt8.ofNat (0x80 + codepoint / 4096 % 64),
      UInt8.ofNat (0x80 + codepoint / 64 % 64), UInt8.ofNat (0x80 + codepoint % 64)]

/-- The escape `\u`, after the `u`: a code point, or a pair of surrogates that make one. -/
def readUnicode (output : Bool) (p : Bytes) : Option (Bytes × Bytes) := do
  let (codepoint, p) ← jsonHex4 p
  if codepoint = 0 ∧ output then none
  else if 0xd800 ≤ codepoint ∧ codepoint ≤ 0xdbff then
    if cur p ≠ ch '\\' ∨ cur p.tail ≠ ch 'u' then none
    else
      let (low, p) ← jsonHex4 p.tail.tail
      if low < 0xdc00 ∨ 0xdfff < low then none
      else some (encodeCodepoint (0x10000 + (codepoint - 0xd800) * 1024 + (low - 0xdc00)), p)
  else if 0xdc00 ≤ codepoint ∧ codepoint ≤ 0xdfff then none
  else some (encodeCodepoint codepoint, p)

/-- The character that a one-letter escape stands for. -/
def simpleEscape (c : UInt8) : Option UInt8 :=
  if c = ch '"' then some (ch '"')
  else if c = ch '\\' then some (ch '\\')
  else if c = ch '/' then some (ch '/')
  else if c = ch 'b' then some 8
  else if c = ch 'f' then some 12
  else if c = ch 'n' then some 10
  else if c = ch 'r' then some 13
  else if c = ch 't' then some 9
  else none

/-- One turn of the loop in `wpm_json_read_string`: the bytes it puts out, and the pointer after
what it read. -/
def readUnit (output : Bool) (c : UInt8) (p : Bytes) : Option (Bytes × Bytes) :=
  if c < 0x20 then none
  else if c = ch '\\' then
    if cur p = ch 'u' then readUnicode output p.tail
    else (simpleEscape (cur p)).map fun b => ([b], p.tail)
  else some ([c], p)

/-- The loop of `wpm_json_read_string`, with `n` bytes put out so far, up to and over the closing
quote. Both of its size tests leave room for the terminator. -/
def readUnits (output : Bool) (size : ℕ) : ℕ → ℕ → Bytes → Option (Bytes × Bytes)
  | 0, _, _ => none
  | fuel + 1, n, p =>
    if cur p = 0 then none
    else if cur p = ch '"' then some ([], p.tail)
    else do
      let (bytes, rest) ← readUnit output (cur p) p.tail
      if size ≤ n + bytes.length then none
      else
        let (more, rest) ← readUnits output size fuel (n + bytes.length) rest
        some (bytes ++ more, rest)

/-- `wpm_json_read_string`. -/
def readString (output : Bool) (size : ℕ) (source : Bytes) : Option (Bytes × Bytes) :=
  let p := jsonSpace source
  if cur p ≠ ch '"' then none else readUnits output size p.length 0 p.tail

/-! ### Values and fields -/

/-- The loop of `wpm_json_value_end`: the pointer where it stops, with the depth of open brackets
and whether a string is open there. The depth is an `int` in the source, which does not overflow: it
is at most the number of brackets, and no text that is read has more than four million bytes. -/
def valueEndFrom : Bytes → ℕ → Bool → Bytes × ℕ × Bool
  | [], depth, quote => ([], depth, quote)
  | c :: p, depth, true =>
    if c = ch '\\' then
      match p with
      | _ :: p' => valueEndFrom p' depth true
      | [] => ([], depth, true)
    else valueEndFrom p depth (c ≠ ch '"')
  | c :: p, depth, false =>
    if c = ch '"' then valueEndFrom p depth true
    else if c = ch '{' ∨ c = ch '[' then valueEndFrom p (depth + 1) false
    else if c = ch '}' ∨ c = ch ']' then
      if depth = 0 then (c :: p, depth, false) else valueEndFrom p (depth - 1) false
    else if c = ch ',' ∧ depth = 0 then (c :: p, depth, false)
    else valueEndFrom p depth false

/-- `wpm_json_value_end`: the pointer at the end of the value, and whether the value is whole. -/
def valueEnd (source : Bytes) : Bytes × Bool :=
  let r := valueEndFrom (jsonSpace source) 0 false
  (r.1, r.2.1 = 0 ∧ r.2.2 = false)

/-- `wpm_json_content`: the text after a byte order mark. -/
def jsonContent (text : Bytes) : Bytes :=
  jsonSpace (if [0xef, 0xbb, 0xbf].isPrefixOf text then text.drop 3 else text)

/-- A field's key in a buffer of `size` bytes. A key that does not fit is read over and is empty. -/
def readKey (size : ℕ) (p : Bytes) : Option (Bytes × Bytes) :=
  match readString true size p with
  | some r => some r
  | none => (readString false sizeMax p).map fun r => ([], r.2)

/-- The loop of `wpm_json_field`. -/
def jsonFieldFrom (wanted : Bytes) : ℕ → Bytes → Option Bytes
  | 0, _ => none
  | fuel + 1, p =>
    let p := jsonSpace p
    if cur p = 0 ∨ cur p = ch '}' then none
    else do
      let (key, p) ← readKey 32 p
      let p := jsonSpace p
      if cur p ≠ ch ':' then none
      else
        let p := jsonSpace p.tail
        if key = wanted then some p
        else
          let p := jsonSpace (valueEnd p).1
          if cur p ≠ ch ',' then none else jsonFieldFrom wanted fuel p.tail

/-- `wpm_json_field`: the pointer to the value of the root field `wanted`. -/
def jsonField (text wanted : Bytes) : Option Bytes :=
  let p := jsonContent text
  if cur p ≠ ch '{' then none else jsonFieldFrom wanted p.length p.tail

/-! ### The version number -/

/-- A digit loop of `wpm_json_version_one`: at most one of the digits is not zero, that one is a
one, and its position is kept. -/
def scanOnes : ℤ → ℤ → Bytes → Option (ℤ × ℤ × Bytes)
  | position, nonzero, [] => some (position, nonzero, [])
  | position, nonzero, c :: p =>
    if isDigit c then
      if c = ch '0' then scanOnes (position + 1) nonzero p
      else if c ≠ ch '1' ∨ 0 ≤ nonzero then none
      else scanOnes (position + 1) position p
    else some (position, nonzero, c :: p)

/-- The exponent loop of `wpm_json_version_one`. -/
def scanExponent : ℤ → Bytes → Option (ℤ × Bytes)
  | exponent, [] => some (exponent, [])
  | exponent, c :: p =>
    if isDigit c then
      let digit : ℤ := (c - ch '0').toNat
      if (4 * 1024 * 1024 - digit) / 10 < exponent then none
      else scanExponent (exponent * 10 + digit) p
    else some (exponent, c :: p)

/-- The exponent of a number, with its sign: zero when there is none. -/
def jsonExponent (p : Bytes) : Option (ℤ × Bytes) :=
  if cur p = ch 'e' ∨ cur p = ch 'E' then
    let sign : ℤ := if cur p.tail = ch '-' then -1 else 1
    let p := if cur p.tail = ch '-' ∨ cur p.tail = ch '+' then p.tail.tail else p.tail
    if isDigit (cur p) then (scanExponent 0 p).map fun r => (sign * r.1, r.2) else none
  else some (0, p)

/-- What `wpm_json_version_one` makes of the text of the field. -/
def acceptsOne (value : Bytes) : Bool :=
  isDigit (cur value) &&
  match scanOnes 0 (-1) value with
  | none => false
  | some (digits, nonzero, p) =>
    decide (¬ (1 < digits ∧ cur value = ch '0')) &&
    match (if cur p ≠ ch '.' then some (digits, nonzero, p)
      else if isDigit (cur p.tail) then scanOnes digits nonzero p.tail else none) with
    | none => false
    | some (_, nonzero, p) =>
      match jsonExponent p with
      | none => false
      | some (exponent, p) =>
        let p := jsonSpace p
        decide (0 ≤ nonzero ∧ digits - nonzero - 1 + exponent = 0 ∧
          (cur p = ch ',' ∨ cur p = ch '}'))

/-- `wpm_json_version_one`: the root field `version` is a spelling of the number one. -/
def jsonVersionOne (text : Bytes) : Bool :=
  match jsonField text (str "version") with
  | none => false
  | some value => acceptsOne value

example : jsonVersionOne (str "\x7b\"a\": [1], \"version\": 0.1e1\x7d") = true := by decide

end Wpm.JsonInput
